import LiteNet.Library.ByteBuffer

/-! # Chunks of a byte string

The byte string cut every `n` bytes; the last chunk may be shorter. The chunks laid
behind each other are the byte string.
-/

namespace LiteNet.Library

def chunk (n : ℕ) (d : Bytes) (i : ℕ) : Bytes := readBytes d (i * n) n

theorem readBytes_readBytes (d : Bytes) (a n b k : ℕ) :
    readBytes (readBytes d a n) b k = readBytes d (a + b) (min k (n - b)) := by
  simp only [readBytes, List.drop_take, List.take_take, List.drop_drop]

theorem flatMap_chunk (n : ℕ) (d : Bytes) (k : ℕ) :
    (List.range k).flatMap (chunk n d) = d.take (k * n) := by
  induction k with
  | zero => simp
  | succ k ih =>
    rw [List.range_succ, List.flatMap_append, ih, List.flatMap_singleton, chunk, readBytes,
      Nat.succ_mul, List.take_add]

theorem flatMap_chunk_all {n : ℕ} {d : Bytes} {k : ℕ} (h : d.length ≤ k * n) :
    (List.range k).flatMap (chunk n d) = d := by
  rw [flatMap_chunk, List.take_of_length_le h]

theorem sum_length_chunk {n : ℕ} {d : Bytes} {k : ℕ} (h : d.length ≤ k * n) :
    ((List.range k).map fun i => (chunk n d i).length).sum = d.length := by
  have hlength := congrArg List.length (flatMap_chunk_all h)
  rwa [List.length_flatMap] at hlength

/-- The number of chunks, as it is computed with a division. -/
theorem le_div_mul {n : ℕ} (hn : 0 < n) (size : ℕ) :
    size ≤ (size / n + if size % n = 0 then 0 else 1) * n := by
  have hdiv := Nat.div_add_mod' size n
  have hmod := Nat.mod_lt size hn
  split
  · rw [Nat.add_zero]
    omega
  · rw [Nat.add_mul]
    omega

end LiteNet.Library
