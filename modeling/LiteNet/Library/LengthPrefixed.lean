import LiteNet.Library.ByteBuffer

/-! # Length-prefixed entries

Byte strings laid behind each other, each after its length in two bytes. A reader
that stands at the start of the entries finds the first and then stands at the
start of the rest.
-/

namespace LiteNet.Library

def encodeEntry (entry : Bytes) : Bytes := leBytes 2 entry.length ++ entry

def encodeEntries (entries : List Bytes) : Bytes := entries.flatMap encodeEntry

@[simp] theorem length_encodeEntry (entry : Bytes) :
    (encodeEntry entry).length = entry.length + 2 := by
  rw [encodeEntry, List.length_append, length_leBytes, Nat.add_comm]

@[simp] theorem encodeEntries_nil : encodeEntries [] = [] := rfl

@[simp] theorem encodeEntries_cons (entry : Bytes) (entries : List Bytes) :
    encodeEntries (entry :: entries) = encodeEntry entry ++ encodeEntries entries := rfl

theorem encodeEntries_append (entries entries' : List Bytes) :
    encodeEntries (entries ++ entries') = encodeEntries entries ++ encodeEntries entries' :=
  List.flatMap_append

theorem length_le_encodeEntries (entries : List Bytes) :
    entries.length ≤ (encodeEntries entries).length := by
  induction entries with
  | nil => exact le_rfl
  | cons entry entries ih =>
    rw [encodeEntries_cons, List.length_append, length_encodeEntry, List.length_cons]
    omega

/-- A range that reads as two parts is two ranges. -/
theorem readBytes_split {d e rest : Bytes} {pos n : ℕ} (h : readBytes d pos n = e ++ rest) :
    readBytes d pos e.length = e ∧ readBytes d (pos + e.length) (n - e.length) = rest := by
  have hlength : e.length ≤ n := by
    have hle := List.length_take_le n (d.drop pos)
    rw [← readBytes, h, List.length_append] at hle
    omega
  rw [readBytes] at h
  constructor
  · have htake := congrArg (List.take e.length) h
    rwa [List.take_take, Nat.min_eq_left hlength, List.take_left] at htake
  · have hdrop := congrArg (List.drop e.length) h
    rwa [List.drop_take, List.drop_drop, List.drop_left, ← readBytes] at hdrop

/-- A reader at the start of the entries reads the length of the first, the first itself, and
stands at the start of the rest. -/
theorem readBytes_encodeEntries {d entry : Bytes} {entries : List Bytes} {pos n : ℕ}
    (hlt : entry.length < 65536) (h : readBytes d pos n = encodeEntries (entry :: entries)) :
    readLE d pos 2 = entry.length ∧ readBytes d (pos + 2) entry.length = entry ∧
      readBytes d (pos + 2 + entry.length) (n - (entry.length + 2)) = encodeEntries entries := by
  rw [encodeEntries_cons, encodeEntry, List.append_assoc] at h
  obtain ⟨hlength, htail⟩ := readBytes_split h
  obtain ⟨hentry, hrest⟩ := readBytes_split htail
  rw [length_leBytes] at hlength hentry hrest
  refine ⟨?_, hentry, ?_⟩
  · rw [readLE, hlength, ofLEBytes_leBytes]
    exact Nat.mod_eq_of_lt hlt
  · rwa [Nat.sub_sub, Nat.add_comm 2] at hrest

end LiteNet.Library
