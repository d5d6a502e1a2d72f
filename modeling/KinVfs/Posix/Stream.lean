import KinVfs.Posix.Fs

/-!
# Reading an open file

An open file is fixed bytes and an offset. `step` is one call, `run` a sequence of them; `Within` says
that each seek on the way has an offset of a file as its exact result.
-/

namespace Posix

inductive Whence where
  | seekSet
  | seekCur
  | seekEnd
  /-- Any other value. -/
  | other
  deriving DecidableEq

namespace Stream

/-- A call on an open file. -/
inductive Call where
  | read (count : Nat)
  | pread (count offset : Nat)
  | lseek (offset : Int) (whence : Whence)

inductive Answer where
  | bytes (data : List UInt8)
  | offset (n : Nat)
  deriving DecidableEq

/-- The bytes from `offset` on, at most `count`. -/
def readAt (content : List UInt8) (offset count : Nat) : List UInt8 := (content.drop offset).take count

/-- The exact result of a seek. -/
def seekTo (content : List UInt8) (pos : Nat) (offset : Int) : Whence → Int
  | .seekSet => offset
  | .seekCur => pos + offset
  | .seekEnd => content.length + offset
  | .other => -1

/-- The answer, and the offset after it. -/
def step (content : List UInt8) (pos : Nat) : Call → Answer × Nat
  | .read count => (.bytes (readAt content pos count), pos + (readAt content pos count).length)
  | .pread count offset => (.bytes (readAt content offset count), pos)
  | .lseek offset whence =>
    (.offset (seekTo content pos offset whence).toNat, (seekTo content pos offset whence).toNat)

/-- The exact result of a seek is an offset of the file. -/
def InRange (content : List UInt8) (pos : Nat) : Call → Prop
  | .lseek offset whence =>
    0 ≤ seekTo content pos offset whence ∧ seekTo content pos offset whence ≤ maxFileSize
  | .pread _ offset => offset ≤ maxFileSize
  | .read _ => True

/-- The answers to the calls, one after the other, and the offset at the end. -/
def run (content : List UInt8) : Nat → List Call → List Answer × Nat
  | pos, [] => ([], pos)
  | pos, call :: calls =>
    let next := run content (step content pos call).2 calls
    ((step content pos call).1 :: next.1, next.2)

/-- Every seek on the way is in range. -/
def Within (content : List UInt8) : Nat → List Call → Prop
  | _, [] => True
  | pos, call :: calls => InRange content pos call ∧ Within content (step content pos call).2 calls

def Answer.data : Answer → List UInt8
  | .bytes data => data
  | .offset _ => []

variable {content : List UInt8}

/-- Reads from an offset on give what stands there. -/
theorem run_reads (counts : List Nat) (pos : Nat) :
    (run content pos (counts.map .read)).1.flatMap Answer.data =
      readAt content pos ((run content pos (counts.map .read)).2 - pos) ∧
    pos ≤ (run content pos (counts.map .read)).2 := by
  induction counts generalizing pos with
  | nil => simp [run, readAt]
  | cons count counts ih =>
    obtain ⟨hdata, hle⟩ := ih (pos + (readAt content pos count).length)
    simp only [List.map_cons, run, step, List.flatMap_cons, Answer.data, hdata]
    generalize (run content (pos + (readAt content pos count).length) (counts.map .read)).2 = stop
      at hle ⊢
    have hlen : (readAt content pos count).length ≤ content.length - pos := by
      simp only [readAt, List.length_take, List.length_drop]
      omega
    refine ⟨?_, by omega⟩
    have hsplit : stop - pos = (readAt content pos count).length +
        (stop - (pos + (readAt content pos count).length)) := by omega
    have hhead : readAt content pos count =
        (content.drop pos).take (readAt content pos count).length := by
      simp only [readAt, List.length_take, List.length_drop]
      rw [List.take_eq_take_iff]
      simp
    rw [hsplit]
    unfold readAt at hhead ⊢
    rw [List.take_add, List.drop_drop, ← hhead]

/-- A read of something gives nothing only at or past the end. -/
theorem readAt_eq_nil {pos count : Nat} (hcount : 0 < count) (h : readAt content pos count = []) :
    content.length ≤ pos := by
  have hlen := congrArg List.length h
  simp only [readAt, List.length_take, List.length_drop, List.length_nil] at hlen
  omega

/-- Reads are always in range. -/
theorem within_reads (counts : List Nat) (pos : Nat) : Within content pos (counts.map .read) := by
  induction counts generalizing pos with
  | nil => exact trivial
  | cons count counts ih => exact ⟨trivial, ih _⟩

theorem run_append (calls calls' : List Call) (pos : Nat) :
    run content pos (calls ++ calls') =
      ((run content pos calls).1 ++ (run content (run content pos calls).2 calls').1,
        (run content (run content pos calls).2 calls').2) := by
  induction calls generalizing pos with
  | nil => rfl
  | cons call calls ih => simp [run, ih]

/-- Reads until one of something gives nothing are the file. -/
theorem run_reads_to_end {counts : List Nat} {last : Nat} {answers : List Answer} (hlast : 0 < last)
    (h : (run content 0 ((counts ++ [last]).map .read)).1 = answers ++ [.bytes []]) :
    answers.flatMap Answer.data = content := by
  obtain ⟨hdata, -⟩ := run_reads counts 0
  rw [List.map_append, run_append] at h
  obtain ⟨hanswers, hend⟩ := List.append_inj' h rfl
  have hnil : readAt content (run content 0 (counts.map .read)).2 last = [] :=
    Answer.bytes.inj (List.head_eq_of_cons_eq hend)
  have hpast := readAt_eq_nil hlast hnil
  rw [← hanswers, hdata]
  simp only [readAt, List.drop_zero, Nat.sub_zero]
  exact List.take_of_length_le hpast

end Stream
end Posix
