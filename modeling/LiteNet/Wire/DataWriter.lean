import Mathlib.Data.Nat.Size
import LiteNet.Library.ByteBuffer

/-! # The data writer

A writer appends ranges of bytes to a vector that doubles until it is longer than
the range. The position is not part of that check, so whether a copy stays inside
the vector depends on the whole history of writes.
-/

namespace LiteNet.Wire
open Library

def growthFactor : ℕ := 2

structure NetDataWriter where
  data : Bytes
  position : ℕ

namespace NetDataWriter

def new : NetDataWriter := ⟨[], 0⟩

def size (w : NetDataWriter) : ℕ := w.position

def reset (w : NetDataWriter) : NetDataWriter := { w with position := 0 }

/-- One round of the loop of `ensure`. -/
def resizeUp (data : Bytes) : Bytes :=
  let newSize := if data.isEmpty then 1 else data.length
  data ++ List.replicate (newSize * growthFactor - data.length) 0

/-- The `do` loop of `ensure`; every round makes the vector longer, so `size + 1` rounds are
enough. -/
def growLoop (size : ℕ) : ℕ → Bytes → Bytes
  | 0, data => data
  | fuel + 1, data =>
    let data := resizeUp data
    if data.length ≤ size then growLoop size fuel data else data

def ensure (w : NetDataWriter) (size : ℕ) : NetDataWriter :=
  if size < w.data.length then w else { w with data := growLoop size (size + 1) w.data }

/-- `write` of a range of bytes. What `memcpy` copies past the end of the vector is lost. -/
def writeRange (w : NetDataWriter) (range : Bytes) : NetDataWriter :=
  if range.length = 0 then w
  else
    let w := w.ensure range.length
    { data := writeBytes w.data w.position range, position := w.position + range.length }

/-- The copy that `write` of a range makes ends inside the vector. -/
def InBounds (w : NetDataWriter) (range : Bytes) : Prop :=
  range ≠ [] → w.position + range.length ≤ (w.ensure range.length).data.length

/-- What the typed overloads take. An enumeration is written as its underlying value. -/
inductive Value where
  | fundamental (bytes : Bytes)
  | vector (values : List Value)
  | string (bytes : Bytes)

mutual

def write (w : NetDataWriter) : Value → NetDataWriter
  | .fundamental bytes => w.writeRange bytes
  | .vector values => writeAll (w.writeRange (leBytes 2 values.length)) values
  | .string bytes => (w.writeRange (leBytes 2 bytes.length)).writeRange bytes

def writeAll (w : NetDataWriter) : List Value → NetDataWriter
  | [] => w
  | value :: values => writeAll (w.write value) values

end

/-- `write` of raw bytes, where `src` is the memory from the pointer on. -/
def writeRaw (w : NetDataWriter) (src : ℕ → UInt8) (srcOffset size : ℕ) : NetDataWriter :=
  w.writeRange ((List.range size).map (fun i => src (srcOffset + i)))

inductive Call where
  | reset
  | write (value : Value)
  | writeRaw (src : ℕ → UInt8) (srcOffset size : ℕ)

def apply (w : NetDataWriter) : Call → NetDataWriter
  | .reset => w.reset
  | .write value => w.write value
  | .writeRaw src srcOffset size => w.writeRaw src srcOffset size

inductive Access where
  | reset
  | range (bytes : Bytes)

def access (w : NetDataWriter) : Access → NetDataWriter
  | .reset => w.reset
  | .range bytes => w.writeRange bytes

def run (w : NetDataWriter) (accesses : List Access) : NetDataWriter := accesses.foldl access w

mutual

def Value.accesses : Value → List Access
  | .fundamental bytes => [.range bytes]
  | .vector values => .range (leBytes 2 values.length) :: allAccesses values
  | .string bytes => [.range (leBytes 2 bytes.length), .range bytes]

def allAccesses : List Value → List Access
  | [] => []
  | value :: values => value.accesses ++ allAccesses values

end

def Call.accesses : Call → List Access
  | .reset => [.reset]
  | .write value => value.accesses
  | .writeRaw src srcOffset size =>
    [.range ((List.range size).map (fun i => src (srcOffset + i)))]

@[simp] theorem run_append (w : NetDataWriter) (a b : List Access) :
    w.run (a ++ b) = (w.run a).run b := List.foldl_append

mutual

theorem write_eq_run (w : NetDataWriter) (value : Value) :
    w.write value = w.run value.accesses := by
  cases value with
  | fundamental bytes => rfl
  | vector values =>
    rw [write, Value.accesses, writeAll_eq_run]
    rfl
  | string bytes => rfl

theorem writeAll_eq_run (w : NetDataWriter) (values : List Value) :
    w.writeAll values = w.run (allAccesses values) := by
  cases values with
  | nil => rfl
  | cons value values => rw [writeAll, allAccesses, run_append, ← write_eq_run, ← writeAll_eq_run]

end

theorem apply_eq_run (w : NetDataWriter) (call : Call) : w.apply call = w.run call.accesses := by
  cases call with
  | reset => rfl
  | write value => exact write_eq_run w value
  | writeRaw src srcOffset size => rfl

theorem foldl_apply (w : NetDataWriter) (calls : List Call) :
    calls.foldl apply w = w.run (calls.flatMap Call.accesses) := by
  induction calls generalizing w with
  | nil => rfl
  | cons call calls ih => rw [List.foldl_cons, ih, List.flatMap_cons, run_append, apply_eq_run]

theorem length_resizeUp (data : Bytes) :
    (resizeUp data).length = if data.length = 0 then 2 else data.length * 2 := by
  rw [resizeUp, List.length_append, List.length_replicate, growthFactor]
  cases data with
  | nil => rfl
  | cons b bs =>
    simp only [List.isEmpty_cons, Bool.false_eq_true, if_false, List.length_cons,
      Nat.add_eq_zero_iff, one_ne_zero, and_false]
    omega

/-- The loop stops at the next power of two above the size. -/
theorem length_growLoop {size : ℕ} (fuel : ℕ) {k : ℕ} {data : Bytes}
    (hk : (resizeUp data).length = 2 ^ k) (hle : k ≤ size.size) (hfuel : size.size ≤ k + fuel) :
    (growLoop size (fuel + 1) data).length = 2 ^ size.size := by
  induction fuel generalizing k data with
  | zero =>
    have hlt : size < 2 ^ k := Nat.size_le.mp hfuel
    rw [growLoop, if_neg (by omega), hk, Nat.le_antisymm hle hfuel]
  | succ fuel ih =>
    rw [growLoop]
    by_cases hlt : size < 2 ^ k
    · rw [if_neg (by omega), hk, Nat.le_antisymm hle (Nat.size_le.mpr hlt)]
    · rw [if_pos (by omega)]
      have hpos := Nat.two_pow_pos k
      refine ih (k := k + 1) ?_ (Nat.lt_size.mpr (by omega)) (by omega)
      rw [length_resizeUp, hk, if_neg (by omega), pow_succ]

/-- How long the vector is when the longest range written so far has this length. -/
def capacity (longest : ℕ) : ℕ := if longest = 0 then 0 else 2 ^ longest.size

theorem length_ensure {w : NetDataWriter} {longest size : ℕ}
    (h : w.data.length = capacity longest) (hs : size ≠ 0) :
    (w.ensure size).data.length = 2 ^ (max longest size).size := by
  rw [ensure]
  rw [capacity] at h
  have hself : size.size ≤ size := Nat.size_le.mpr size.lt_two_pow_self
  by_cases hzero : longest = 0
  · rw [if_pos hzero] at h
    rw [if_neg (by omega), hzero, Nat.zero_max]
    refine length_growLoop size (k := 1) ?_ ?_ (by omega)
    · rw [length_resizeUp, if_pos h]
      rfl
    · exact Nat.lt_size.mpr (by rw [pow_zero]; omega)
  · rw [if_neg hzero] at h
    have hlongest : longest < 2 ^ longest.size := Nat.lt_size_self longest
    by_cases hlt : size < w.data.length
    · rw [if_pos hlt, h]
      congr 1
      refine le_antisymm (Nat.size_le_size (le_max_left _ _)) (Nat.size_le.mpr ?_)
      omega
    · rw [if_neg hlt, max_eq_right (by omega)]
      refine length_growLoop size (k := longest.size + 1) ?_ ?_ (by omega)
      · rw [length_resizeUp, if_neg (by omega), h, pow_succ]
      · exact Nat.lt_size.mpr (by omega)

theorem ensure_position (w : NetDataWriter) (size : ℕ) :
    (w.ensure size).position = w.position := by
  rw [ensure]
  split <;> rfl

theorem growLoop_prefix (size fuel : ℕ) (data : Bytes) : data <+: growLoop size fuel data := by
  induction fuel generalizing data with
  | zero => exact List.prefix_rfl
  | succ fuel ih =>
    have hdata : data <+: resizeUp data := List.prefix_append _ _
    rw [growLoop]
    split
    · exact hdata.trans (ih _)
    · exact hdata

theorem ensure_prefix (w : NetDataWriter) (size : ℕ) : w.data <+: (w.ensure size).data := by
  rw [ensure]
  split
  · exact List.prefix_rfl
  · exact growLoop_prefix ..

/-- The bytes written since the last reset. -/
def written (accesses : List Access) : Bytes :=
  accesses.foldl (fun bytes access =>
    match access with
    | .reset => []
    | .range range => bytes ++ range) []

/-- The length of the longest range written. -/
def longest (accesses : List Access) : ℕ :=
  accesses.foldl (fun length access =>
    match access with
    | .reset => length
    | .range range => max length range.length) 0

@[simp] theorem written_reset (before : List Access) : written (before ++ [.reset]) = [] := by
  simp [written]

@[simp] theorem written_range (before : List Access) (range : Bytes) :
    written (before ++ [.range range]) = written before ++ range := by
  simp [written]

@[simp] theorem longest_reset (before : List Access) :
    longest (before ++ [.reset]) = longest before := by
  simp [longest]

@[simp] theorem longest_range (before : List Access) (range : Bytes) :
    longest (before ++ [.range range]) = max (longest before) range.length := by
  simp [longest]

/-- The position and the length of the vector depend on the lengths of the ranges only, also when
copies have left the vector. -/
theorem run_lengths (accesses : List Access) :
    (new.run accesses).position = (written accesses).length ∧
      (new.run accesses).data.length = capacity (longest accesses) := by
  induction accesses using List.reverseRecOn with
  | nil => exact ⟨rfl, rfl⟩
  | append_singleton before access ih =>
    obtain ⟨hposition, hlength⟩ := ih
    rw [run_append]
    cases access with
    | reset =>
      rw [written_reset, longest_reset]
      exact ⟨rfl, hlength⟩
    | range range =>
      rw [written_range, longest_range, List.length_append]
      change ((new.run before).writeRange range).position = _ ∧
        ((new.run before).writeRange range).data.length = _
      rw [writeRange]
      by_cases hs : range.length = 0
      · rw [if_pos hs, hs, Nat.max_zero]
        exact ⟨hposition, hlength⟩
      · rw [if_neg hs]
        dsimp only
        rw [ensure_position]
        refine ⟨congrArg (· + range.length) hposition, ?_⟩
        rw [length_writeBytes, length_ensure hlength hs, capacity, if_neg (by omega)]

/-- Whether a copy stays inside the vector, by lengths alone. -/
theorem inBounds_iff (before : List Access) (range : Bytes) :
    (new.run before).InBounds range ↔ (range ≠ [] →
      (written before).length + range.length ≤
        2 ^ (max (longest before) range.length).size) := by
  obtain ⟨hposition, hlength⟩ := run_lengths before
  refine forall_congr' (fun hne => ?_)
  rw [length_ensure hlength (by simpa using hne), hposition]

/-- The vector begins with what was written. -/
def Holds (w : NetDataWriter) (bytes : Bytes) : Prop :=
  w.size ≤ w.data.length ∧ w.data.take w.size = bytes

theorem Holds.writeRange {w : NetDataWriter} {bytes range : Bytes} (h : w.Holds bytes)
    (hin : w.InBounds range) : (w.writeRange range).Holds (bytes ++ range) := by
  rw [NetDataWriter.writeRange]
  by_cases hs : range.length = 0
  · rw [if_pos hs, List.length_eq_zero_iff.mp hs, List.append_nil]
    exact h
  · rw [if_neg hs]
    have hfits : (w.ensure range.length).position + range.length ≤
        (w.ensure range.length).data.length := by
      rw [ensure_position]
      exact hin (by simpa using hs)
    have htake : (w.ensure range.length).data.take w.position = bytes := by
      obtain ⟨rest, hrest⟩ := w.ensure_prefix range.length
      rw [← hrest]
      exact (List.take_append_of_le_length h.1).trans h.2
    refine ⟨?_, (take_writeBytes _ _ _ hfits).trans ?_⟩
    · rw [length_writeBytes]
      exact hfits
    · rw [ensure_position, htake]

theorem run_holds (accesses : List Access)
    (h : ∀ before range, before ++ [.range range] <+: accesses →
      (new.run before).InBounds range) : (new.run accesses).Holds (written accesses) := by
  induction accesses using List.reverseRecOn with
  | nil => exact ⟨le_rfl, rfl⟩
  | append_singleton before access ih =>
    have hbefore := ih (fun b range hb => h b range (hb.trans (List.prefix_append _ _)))
    rw [run_append]
    cases access with
    | reset =>
      rw [written_reset]
      exact ⟨Nat.zero_le _, rfl⟩
    | range range =>
      rw [written_range]
      exact hbefore.writeRange (h before range List.prefix_rfl)

/-- In every sequence of calls, all copies stay inside the vector, and it begins with what was
written, exactly when no range ends, counted from the last reset, behind the next power of two above
the longest range so far. -/
theorem buffer_iff (calls : List Call) :
    ((∀ before range, before ++ [.range range] <+: calls.flatMap Call.accesses →
        (new.run before).InBounds range) ∧
      ∀ before, before <+: calls →
        (before.foldl apply new).Holds (written (before.flatMap Call.accesses))) ↔
    ∀ before range, before ++ [.range range] <+: calls.flatMap Call.accesses → range ≠ [] →
      (written before).length + range.length ≤ 2 ^ (max (longest before) range.length).size := by
  constructor
  · rintro ⟨h, -⟩ before range hb
    exact (inBounds_iff before range).mp (h before range hb)
  · intro h
    have hin : ∀ before range, before ++ [.range range] <+: calls.flatMap Call.accesses →
        (new.run before).InBounds range :=
      fun before range hb => (inBounds_iff before range).mpr (h before range hb)
    refine ⟨hin, fun before hb => ?_⟩
    rw [foldl_apply]
    obtain ⟨rest, rfl⟩ := hb
    refine run_holds _ (fun b range hr => hin b range (hr.trans ?_))
    rw [List.flatMap_append]
    exact List.prefix_append _ _

/-- Three bytes of their own overflow a vector of two. -/
theorem write_overflow :
    ¬ ∀ calls : List Call,
      (∀ before range, before ++ [.range range] <+: calls.flatMap Call.accesses →
        (new.run before).InBounds range) ∧
      ∀ before, before <+: calls →
        (before.foldl apply new).Holds (written (before.flatMap Call.accesses)) := by
  intro h
  have hin := (h (List.replicate 3 (.write (.fundamental [7])))).1 [.range [7], .range [7]] [7]
    List.prefix_rfl (by decide)
  revert hin
  decide

end NetDataWriter

end LiteNet.Wire
