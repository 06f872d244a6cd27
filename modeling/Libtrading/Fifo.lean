import Libtrading.Buffer
import Mathlib.Data.List.TakeWhile

/-!
# A buffer as a bounded queue

What the operations of a buffer are to do is said on the list of its unread bytes. All of them do it but
`buffer_append`, which copies to `start` where it should copy to `end`, and moves both indices: it is right only
where it copies nothing.
-/

namespace Libtrading
set_option autoImplicit false

namespace Buffer

/-! ## The operations -/

/-- `buffer_append`: what it leaves in `dst` and in `src`. -/
def bufferAppend (dst src : Buffer) : Buffer × Buffer :=
  let len := if dst.bufferRemaining < src.bufferSize then dst.bufferRemaining else src.bufferSize
  ({ data := dst.data.take dst.start ++ ((src.data.drop src.start).take len ++ dst.data.drop (dst.start + len)),
     start := dst.start + len
     stop := dst.stop + len }, src)

/-- `buffer_get_n`. -/
def bufferGetN : Nat → Buffer → List UInt8 × Buffer
  | 0, b => ([], b)
  | n + 1, b =>
    let r := b.bufferGet8
    let rest := bufferGetN n r.2
    (r.1 :: rest.1, rest.2)

/-- A call on a buffer; `append` has the source with it. -/
inductive Op where
  | put (byte : UInt8)
  | append (src : Buffer)
  | compact
  | reset
  | get8
  | getN (n : Nat)
  | find (c : UInt8)

/-- What a call hands out: bytes read, whether a byte was found, or the source it leaves. -/
inductive Out where
  | done
  | bytes (w : List UInt8)
  | found (b : Bool)
  | source (src : Buffer)
  deriving DecidableEq

def call (b : Buffer) : Op → Out × Buffer
  | .put byte => (.done, b.bufferPut byte)
  | .append src => (.source (b.bufferAppend src).2, (b.bufferAppend src).1)
  | .compact => (.done, b.bufferCompact)
  | .reset => (.done, b.bufferReset)
  | .get8 => (.bytes [b.bufferGet8.1], b.bufferGet8.2)
  | .getN n => (.bytes (b.bufferGetN n).1, (b.bufferGetN n).2)
  | .find c => (.found (b.bufferFind c).1, (b.bufferFind c).2)

/-- What the caller sees to: room for a byte to put, bytes to get, and a source that is a buffer. -/
def Allowed (b : Buffer) : Op → Prop
  | .put _ => 0 < b.bufferRemaining
  | .append src => src.Valid
  | .compact | .reset | .find _ => True
  | .get8 => 1 ≤ b.bufferSize
  | .getN n => n ≤ b.bufferSize

end Buffer

/-! ## The queue -/

namespace Fifo
open Buffer

/-- The calls on a list of bytes with `room` for more. -/
def call (u : List UInt8) (room : Nat) : Op → Out × List UInt8
  | .put byte => (.done, u ++ [byte])
  | .append src => (.source src, u ++ src.unread.take room)
  | .compact => (.done, u)
  | .reset => (.done, [])
  | .get8 => (.bytes (u.take 1), u.drop 1)
  | .getN n => (.bytes (u.take n), u.drop n)
  | .find c => (.found (c ∈ u), u.dropWhile (· ≠ c))

/-- A call does on the buffer what it does on the list, and the indices stay in order. -/
structure Refined (b : Buffer) (op : Op) : Prop where
  valid : (b.call op).2.Valid
  capacity : (b.call op).2.capacity = b.capacity
  out : (b.call op).1 = (call b.unread b.bufferRemaining op).1
  unread : (b.call op).2.unread = (call b.unread b.bufferRemaining op).2

/-- A call that appends nothing, or does not append. -/
def CopiesNothing (b : Buffer) : Op → Prop
  | .append src => src.unread = [] ∨ b.bufferRemaining = 0
  | _ => True

/-- Every call of a run meets a condition in the state before it. -/
def Along (P : Buffer → Op → Prop) : Buffer → List Op → Prop
  | _, [] => True
  | b, op :: ops => P b op ∧ Along P (b.call op).2 ops

/-! ## The calls one by one -/

section Calls
variable {b : Buffer}

theorem get_n_refined (hv : b.Valid) {n : Nat} (room : n ≤ b.bufferSize) :
    (b.bufferGetN n).2 = b.bufferAdvance n ∧ (b.bufferGetN n).1 = b.unread.take n := by
  rw [hv.size_eq] at room
  have start := hv.start_le
  induction n generalizing b with
  | zero => exact ⟨rfl, rfl⟩
  | succ n ih =>
    have cons := unread_cons hv (by omega)
    have next : (b.bufferAdvance 1).Valid := ⟨by simp only [bufferAdvance]; omega, hv.stop_le⟩
    obtain ⟨rest, bytes⟩ := ih next (by simp only [bufferAdvance]; omega) (by simp only [bufferAdvance]; omega)
    rw [bufferGetN, cons, List.take_succ_cons]
    refine ⟨?_, congrArg (b.byteAt b.start :: ·) bytes⟩
    exact rest.trans ((advance_advance b 1 n).trans (by rw [Nat.add_comm]))

theorem find_from_refined (hv : b.Valid) (c : UInt8) : (bufferFindFrom b.unread.length b c).1 = decide (c ∈ b.unread) ∧
    b.Moved (bufferFindFrom b.unread.length b c).2 ∧
    (bufferFindFrom b.unread.length b c).2.unread = b.unread.dropWhile (· ≠ c) := by
  generalize hu : b.unread = u
  induction u generalizing b with
  | nil => exact ⟨rfl, hv.refl_moved, hu⟩
  | cons x u ih =>
    have some : b.start < b.stop := by
      have length := length_unread hv
      rw [hu, List.length_cons] at length
      omega
    have cons := unread_cons hv some
    obtain ⟨byte, rest⟩ := List.cons.inj (hu.symm.trans cons)
    have moved : b.Moved (b.bufferAdvance 1) := ⟨rfl, rfl, Nat.le_succ _, some⟩
    rw [List.length_cons, bufferFindFrom, bufferPeek8, ← byte]
    by_cases here : x = c
    · have kept : (x :: u).dropWhile (· ≠ c) = x :: u :=
        List.dropWhile_cons_of_neg (by rw [decide_eq_true_eq]; exact not_not.2 here)
      rw [if_pos here, kept]
      refine ⟨?_, hv.refl_moved, hu⟩
      rw [here, decide_eq_true List.mem_cons_self]
    · obtain ⟨found, later, bytes⟩ := ih (moved.valid hv) rest.symm
      have dropped : (x :: u).dropWhile (· ≠ c) = u.dropWhile (· ≠ c) :=
        List.dropWhile_cons_of_pos (decide_eq_true here)
      rw [if_neg here, dropped]
      refine ⟨found.trans (decide_eq_decide.2 ?_), moved.trans later, bytes⟩
      rw [List.mem_cons, or_iff_right (Ne.symm here)]

theorem advance_refined (hv : b.Valid) {n : Nat} (room : n ≤ b.bufferSize) :
    (b.bufferAdvance n).Valid ∧ (b.bufferAdvance n).unread = b.unread.drop n := by
  rw [hv.size_eq] at room
  have start := hv.start_le
  refine ⟨⟨by simp only [bufferAdvance]; omega, hv.stop_le⟩, ?_⟩
  rw [unread, unread, List.drop_drop]
  rfl

/-- How many bytes an append copies. -/
theorem append_length {src : Buffer} (hs : src.Valid) :
    (if b.bufferRemaining < src.bufferSize then b.bufferRemaining else src.bufferSize) =
      (src.unread.take b.bufferRemaining).length := by
  rw [List.length_take, length_unread hs, hs.size_eq]
  split <;> omega

/-- **Appending** is right exactly where nothing is copied: it leaves as many bytes to read as there were. -/
theorem append_refined_iff {src : Buffer} (hv : b.Valid) (hs : src.Valid) :
    Refined b (.append src) ↔ CopiesNothing b (.append src) := by
  have size := length_unread hv
  have start := hv.start_le
  have nothing : CopiesNothing b (.append src) ↔ (src.unread.take b.bufferRemaining).length = 0 := by
    rw [CopiesNothing, List.length_eq_zero_iff, List.take_eq_nil_iff, or_comm]
  have copied := append_length (b := b) hs
  rw [nothing]
  refine ⟨fun refined => ?_, fun none => ?_⟩
  · have lengths := congrArg List.length refined.unread
    rw [length_unread refined.valid] at lengths
    simp only [Buffer.call, Fifo.call, bufferAppend, List.length_append, size] at lengths
    omega
  · have same : (b.call (.append src)).2 = b := by
      simp only [Buffer.call, bufferAppend, copied, none, List.take_zero, List.nil_append, Nat.add_zero,
        List.take_append_drop]
    refine ⟨?_, ?_, rfl, ?_⟩
    · rw [same]
      exact hv
    · rw [same]
    · rw [same, Fifo.call, List.length_eq_zero_iff.1 none, List.append_nil]

/-- **One call.** What is allowed does on the buffer what it does on the list, except to copy in an append. -/
theorem refined_iff (hv : b.Valid) {op : Op} (allowed : Allowed b op) : Refined b op ↔ CopiesNothing b op := by
  have start := hv.start_le
  cases op with
  | append src => exact append_refined_iff hv allowed
  | put byte =>
    obtain ⟨valid, unread⟩ := put_appends hv allowed byte
    exact ⟨fun _ => trivial, fun _ => ⟨valid, List.length_set .., rfl, unread⟩⟩
  | compact =>
    obtain ⟨valid, unread, size, -⟩ := hv.compact
    exact ⟨fun _ => trivial, fun _ => ⟨valid, size, rfl, unread⟩⟩
  | reset => exact ⟨fun _ => trivial, fun _ => ⟨⟨Nat.le_refl _, Nat.zero_le _⟩, rfl, rfl, rfl⟩⟩
  | get8 =>
    obtain ⟨valid, unread⟩ := advance_refined hv allowed
    have some : b.start < b.stop := by
      have one : 1 ≤ b.bufferSize := allowed
      rw [hv.size_eq] at one
      omega
    have first : [b.byteAt b.start] = b.unread.take 1 := by
      rw [unread_cons hv some]
      rfl
    exact ⟨fun _ => trivial, fun _ => ⟨valid, rfl, congrArg Out.bytes first, unread⟩⟩
  | getN n =>
    obtain ⟨valid, unread⟩ := advance_refined hv allowed
    obtain ⟨rest, bytes⟩ := get_n_refined hv allowed
    refine ⟨fun _ => trivial, fun _ => ⟨?_, ?_, congrArg Out.bytes bytes, ?_⟩⟩
    · exact rest ▸ valid
    · exact (congrArg Buffer.capacity rest).trans rfl
    · exact (congrArg Buffer.unread rest).trans unread
  | find c =>
    obtain ⟨found, moved, unread⟩ := find_from_refined hv c
    have size : b.bufferSize = b.unread.length := by rw [length_unread hv, hv.size_eq]
    rw [← size] at found moved unread
    exact ⟨fun _ => trivial,
      fun _ => ⟨moved.valid hv, congrArg List.length moved.data, congrArg Out.found found, unread⟩⟩

end Calls

/-- **The bounded queue.** A run of calls does on the buffer what it does on the list of its unread bytes, with the
indices in order all along, if and only if no append in it has anything to copy. -/
theorem run_refined_iff {b : Buffer} (hv : b.Valid) {ops : List Op} (allowed : Along Allowed b ops) :
    Along Refined b ops ↔ Along CopiesNothing b ops := by
  induction ops generalizing b with
  | nil => exact Iff.rfl
  | cons op ops ih =>
    obtain ⟨first, later⟩ := allowed
    have one := refined_iff hv first
    constructor
    · rintro ⟨refined, rest⟩
      exact ⟨one.1 refined, (ih refined.valid later).1 rest⟩
    · rintro ⟨nothing, rest⟩
      have refined := one.2 nothing
      exact ⟨refined, (ih refined.valid later).2 rest⟩

/-- Four bytes are put, the third one is found, and the full buffer appends nothing. -/
theorem full_buffer_refined :
    Along Refined (bufferNew 4) [.put 7, .put 8, .put 9, .put 10, .find 9, .append ⟨[1, 2], 0, 2⟩, .get8, .compact] := by
  have valid : (bufferNew 4).Valid := ⟨Nat.le_refl _, Nat.zero_le _⟩
  refine (run_refined_iff valid ?_).2 ?_
  · simp only [Along, Allowed, true_and, and_true]
    refine ⟨by decide, by decide, by decide, by decide, ⟨by decide, by decide⟩, by decide⟩
  · simp only [Along, CopiesNothing, true_and, and_true]
    exact .inr (by decide)

/-- A byte appended to an empty buffer is not there. -/
theorem append_to_empty : ¬Along Refined (bufferNew 4) [.append ⟨[7], 0, 1⟩] := by
  rintro ⟨refined, -⟩
  have unread := refined.unread
  exact absurd unread (by decide)

end Fifo

end Libtrading
