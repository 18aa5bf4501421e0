import Mathlib.Data.List.DropRight

namespace Purgery.Pipe

/-- What is kept of a stream of which only the end is wanted. `peak` records
how long the buffer has been. -/
structure Tail (α : Type) where
  buf : List α
  truncated : Bool
  peak : Nat

namespace Tail

variable {α : Type} {n m : Nat} {t : Tail α} {stream chunk : List α}

def empty : Tail α := ⟨[], false, 0⟩

/-- Append a chunk, then drop from the front what is more than `n`. -/
def push (n : Nat) (t : Tail α) (chunk : List α) : Tail α :=
  let buf := t.buf ++ chunk
  let peak := max t.peak buf.length
  if buf.length > n then ⟨buf.drop (buf.length - n), true, peak⟩ else ⟨buf, t.truncated, peak⟩

/-- The buffer holds the last `n` elements of the stream, and it was never more
than `m` too long. -/
structure Keeps (n m : Nat) (t : Tail α) (stream : List α) : Prop where
  buf : t.buf = stream.rtake n
  truncated : t.truncated = decide (n < stream.length)
  peak : t.peak ≤ n + m

theorem Keeps.empty : Keeps n m (empty : Tail α) [] where
  buf := by simp [Tail.empty, List.rtake]
  truncated := by simp [Tail.empty]
  peak := Nat.zero_le _

theorem rtake_length : (stream.rtake n).length = min n stream.length := by
  rw [List.rtake, List.length_drop]
  omega

theorem rtake_of_le (h : stream.length ≤ n) : stream.rtake n = stream := by
  rw [List.rtake, Nat.sub_eq_zero_of_le h, List.drop_zero]

theorem rtake_append_left (h : n ≤ chunk.length) : (stream ++ chunk).rtake n = chunk.rtake n := by
  have hskip : stream.length ≤ (stream ++ chunk).length - n := by
    rw [List.length_append]
    omega
  rw [List.rtake, List.drop_append, List.drop_eq_nil_of_le hskip, List.nil_append, List.rtake]
  congr 1
  rw [List.length_append]
  omega

/-- The end of a longer stream comes from the end of the shorter one. -/
theorem rtake_append : (stream.rtake n ++ chunk).rtake n = (stream ++ chunk).rtake n := by
  by_cases hshort : stream.length ≤ n
  · rw [rtake_of_le hshort]
  · have hlong : n ≤ (stream.rtake n ++ chunk).length := by
      rw [List.length_append, rtake_length]
      omega
    have hsplit : stream ++ chunk =
        stream.take (stream.length - n) ++ (stream.rtake n ++ chunk) := by
      rw [← List.append_assoc, List.rtake, List.take_append_drop]
    rw [hsplit, rtake_append_left hlong]

theorem Keeps.push (h : Keeps n m t stream) (hm : chunk.length ≤ m) :
    Keeps n m (t.push n chunk) (stream ++ chunk) := by
  have hlength : (t.buf ++ chunk).length = min n stream.length + chunk.length := by
    rw [List.length_append, h.buf, rtake_length]
  have hbuf : (t.buf ++ chunk).rtake n = (stream ++ chunk).rtake n := by
    rw [h.buf, rtake_append]
  have hpeak : max t.peak (t.buf ++ chunk).length ≤ n + m := by
    have hold := h.peak
    omega
  unfold Tail.push
  by_cases hlong : (t.buf ++ chunk).length > n
  · simp only [hlong, if_true]
    refine ⟨hbuf, ?_, hpeak⟩
    symm
    rw [decide_eq_true_eq, List.length_append]
    omega
  · simp only [hlong, if_false]
    refine ⟨?_, ?_, hpeak⟩
    · rw [← hbuf, rtake_of_le (Nat.le_of_not_lt hlong)]
    · rw [h.truncated, List.length_append, decide_eq_decide]
      omega

end Tail

end Purgery.Pipe
