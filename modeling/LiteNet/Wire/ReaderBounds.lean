import LiteNet.Wire.TypedReads

/-! # What a reader copies

The check before a read subtracts the position from the size without a sign, so it
guards a reader only as long as the position has not passed the size. A reader that
starts inside its packet stays inside through every sequence of reads.
-/

namespace LiteNet.Wire
open Library

namespace NetDataReader

/-- The position has not passed the size, and all bytes up to the size are there. -/
structure Inside (r : NetDataReader) : Prop where
  position_le : r.position ≤ r.size
  size_le : r.size ≤ r.data.length

/-- The range that a read of `size` bytes copies: its first byte and its length. -/
def copied (r : NetDataReader) (size : ℕ) : Option (Bytes × NetDataReader) → List (ℕ × ℕ)
  | none => []
  | some _ => [(r.position, size)]

/-- The ranges that the read of a string copies, by what its length field gave. -/
def stringCopied (r : NetDataReader) : Option (Bytes × NetDataReader) → List (ℕ × ℕ)
  | none => []
  | some (length, r') =>
    (r.position, 2) :: r'.copied (ofLEBytes length) (r'.tryRead (ofLEBytes length))

def copies (r : NetDataReader) : ReadCall → List (ℕ × ℕ)
  | .fundamental size => r.copied size (r.tryRead size)
  | .string => r.stringCopied (r.tryRead 2)
  | .raw size => r.copied size (r.tryRead size)

/-- The ranges that calls one after another copy. -/
def allCopies (r : NetDataReader) : List ReadCall → List (ℕ × ℕ)
  | [] => []
  | c :: cs => r.copies c ++ (r.call c).2.allCopies cs

variable {r r' : NetDataReader} {n : ℕ} {bytes : Bytes}

/-- Any read moves the reader by what it copies, and it is checked against what seems to be left. -/
theorem tryRead_cases (h : r.tryRead n = some (bytes, r')) :
    r' = { r with position := r.position + n } ∧ n ≤ sizeSub r.size r.position := by
  unfold tryRead at h
  generalize sizeSub r.size r.position = left at h ⊢
  by_cases hleft : left < n
  · rw [if_pos hleft] at h
    cases h
  · rw [if_neg hleft, Option.some.injEq, Prod.mk.injEq] at h
    exact ⟨h.2.symm, not_lt.mp hleft⟩

theorem Inside.tryRead (h : r.Inside) (hs : r.size < 2 ^ 64)
    (hr : r.tryRead n = some (bytes, r')) :
    r.position + n ≤ r.size ∧ r'.size = r.size ∧ r'.Inside := by
  obtain ⟨rfl, hn⟩ := tryRead_cases hr
  rw [sizeSub_of_le hs h.position_le] at hn
  have hend : r.position + n ≤ r.size := by
    have := h.position_le
    omega
  exact ⟨hend, rfl, hend, h.size_le⟩

theorem Inside.bytesRead (h : r.Inside) (hs : r.size < 2 ^ 64) (n : ℕ) :
    (∀ range ∈ r.copied n (r.tryRead n), range.1 + range.2 ≤ r.size) ∧
      (r.bytesRead (r.tryRead n)).2.size = r.size ∧ (r.bytesRead (r.tryRead n)).2.Inside := by
  cases hread : r.tryRead n with
  | none => exact ⟨by simp [copied], rfl, h⟩
  | some read =>
    obtain ⟨hend, hlater⟩ := h.tryRead hs hread
    exact ⟨by simpa [copied] using hend, hlater⟩

theorem Inside.tryReadString (h : r.Inside) (hs : r.size < 2 ^ 64) :
    (∀ range ∈ r.stringCopied (r.tryRead 2), range.1 + range.2 ≤ r.size) ∧
      r.tryReadString.2.size = r.size ∧ r.tryReadString.2.Inside := by
  rw [tryReadString_eq]
  cases hlength : r.tryRead 2 with
  | none =>
    rw [stringWith_of_none hlength]
    exact ⟨by simp [stringCopied], rfl, h⟩
  | some first =>
    obtain ⟨hend, hsize, hinside⟩ := h.tryRead hs hlength
    obtain ⟨hcopies, hlater⟩ := hinside.bytesRead (hsize.trans_lt hs) (ofLEBytes first.1)
    rw [hsize] at hcopies hlater
    refine ⟨List.forall_mem_cons.mpr ⟨hend, hcopies⟩, ?_⟩
    cases hbytes : first.2.tryRead (ofLEBytes first.1) with
    | none =>
      rw [stringWith_of_cut hlength hbytes]
      exact ⟨hsize, hinside⟩
    | some second =>
      rw [stringWith_of_some hlength hbytes]
      rw [hbytes] at hlater
      exact hlater

theorem Inside.call (h : r.Inside) (hs : r.size < 2 ^ 64) (c : ReadCall) :
    (∀ range ∈ r.copies c, range.1 + range.2 ≤ r.size) ∧
      (r.call c).2.size = r.size ∧ (r.call c).2.Inside := by
  cases c with
  | fundamental size => exact h.bytesRead hs size
  | string => exact h.tryReadString hs
  | raw size => exact h.bytesRead hs size

/-- No sequence of reads copies a byte at or behind the size. -/
theorem Inside.allCopies (h : r.Inside) (hs : r.size < 2 ^ 64) (cs : List ReadCall) :
    ∀ range ∈ r.allCopies cs, range.1 + range.2 ≤ r.size := by
  induction cs generalizing r with
  | nil => simp [NetDataReader.allCopies]
  | cons c cs ih =>
    obtain ⟨hcopies, hsize, hinside⟩ := h.call hs c
    have hlater := ih hinside (hsize.trans_lt hs)
    rw [hsize] at hlater
    intro range hrange
    exact (List.mem_append.mp hrange).elim (hcopies range) (hlater range)

/-- Reading a string moves the reader forward, over the same bytes. -/
theorem tryReadString_moves (r : NetDataReader) :
    r.tryReadString.2.data = r.data ∧ r.tryReadString.2.size = r.size ∧
      r.position ≤ r.tryReadString.2.position := by
  rw [tryReadString_eq]
  cases hlength : r.tryRead 2 with
  | none =>
    rw [stringWith_of_none hlength]
    exact ⟨rfl, rfl, le_rfl⟩
  | some first =>
    obtain ⟨length, r'⟩ := first
    obtain ⟨rfl, -⟩ := tryRead_cases hlength
    cases hbytes : ({ r with position := r.position + 2 } : NetDataReader).tryRead
        (ofLEBytes length) with
    | none =>
      rw [stringWith_of_cut hlength hbytes]
      exact ⟨rfl, rfl, Nat.le_add_right _ _⟩
    | some second =>
      obtain ⟨bytes, r''⟩ := second
      obtain ⟨rfl, -⟩ := tryRead_cases hbytes
      rw [stringWith_of_some hlength hbytes]
      exact ⟨rfl, rfl, le_add_right (Nat.le_add_right _ _)⟩

theorem call_moves (r : NetDataReader) (c : ReadCall) : r.position ≤ (r.call c).2.position := by
  have hbytes (n : ℕ) : r.position ≤ (r.bytesRead (r.tryRead n)).2.position := by
    cases hread : r.tryRead n with
    | none => exact le_rfl
    | some read =>
      obtain ⟨bytes, r'⟩ := read
      obtain ⟨rfl, -⟩ := tryRead_cases hread
      exact Nat.le_add_right _ _
  cases c with
  | fundamental size => exact hbytes size
  | string => exact r.tryReadString_moves.2.2
  | raw size => exact hbytes size

/-- What a call copies lies at the position or behind it. -/
theorem position_le_of_copies (r : NetDataReader) (c : ReadCall) :
    ∀ range ∈ r.copies c, r.position ≤ range.1 := by
  have hcopied {r r' : NetDataReader} (h : r.position ≤ r'.position) (n : ℕ) :
      ∀ range ∈ r'.copied n (r'.tryRead n), r.position ≤ range.1 := by
    cases r'.tryRead n with
    | none => exact fun range hrange => absurd hrange List.not_mem_nil
    | some read => simpa [copied] using h
  cases c with
  | fundamental size => exact hcopied le_rfl size
  | string =>
    change ∀ range ∈ r.stringCopied (r.tryRead 2), r.position ≤ range.1
    cases hlength : r.tryRead 2 with
    | none => exact fun range hrange => absurd hrange List.not_mem_nil
    | some first =>
      obtain ⟨length, r'⟩ := first
      obtain ⟨rfl, -⟩ := tryRead_cases hlength
      exact List.forall_mem_cons.mpr ⟨le_rfl, hcopied (Nat.le_add_right _ _) _⟩
  | raw size => exact hcopied le_rfl size

theorem position_le_of_allCopies (r : NetDataReader) (cs : List ReadCall) :
    ∀ range ∈ r.allCopies cs, r.position ≤ range.1 := by
  induction cs generalizing r with
  | nil => exact fun range hrange => absurd hrange List.not_mem_nil
  | cons c cs ih =>
    intro range hrange
    rcases List.mem_append.mp hrange with hrange | hrange
    · exact r.position_le_of_copies c range hrange
    · exact (r.call_moves c).trans (ih _ range hrange)

end NetDataReader

end LiteNet.Wire
