import LiteNet.Library.LengthPrefixed
import LiteNet.Wire.DataReader
import LiteNet.Wire.DataWriter

/-! # Typed reads

What a reader returns call by call. A read that does not fit consumes nothing,
except that a string consumes its length field before its bytes are checked. Over
the bytes of typed writes the same types come back in the same order, as long as
the length of every string fits its field.
-/

namespace LiteNet.Wire
open Library

namespace NetDataReader

def remaining (r : NetDataReader) : ℕ := sizeSub r.size r.position

/-- The overloads of `try_read`; a fundamental type is given by its size. -/
inductive ReadCall where
  | fundamental (size : ℕ)
  | string
  | raw (size : ℕ)

/-- The outcome of reading bytes; nothing where `try_read` returns false. -/
def bytesRead (r : NetDataReader) :
    Option (Bytes × NetDataReader) → Option Bytes × NetDataReader
  | none => (none, r)
  | some (bytes, r) => (some bytes, r)

def call (r : NetDataReader) : ReadCall → Option Bytes × NetDataReader
  | .fundamental size => r.bytesRead (r.tryRead size)
  | .string => r.tryReadString
  | .raw size => r.bytesRead (r.tryRead size)

/-- The results of calls one after another, and the reader after them. -/
def calls (r : NetDataReader) : List ReadCall → List (Option Bytes) × NetDataReader
  | [] => ([], r)
  | c :: cs =>
    let later := (r.call c).2.calls cs
    ((r.call c).1 :: later.1, later.2)

section Boundaries

variable {r : NetDataReader} {n : ℕ}

theorem tryRead_of_fits (h : r.position ≤ r.size) (hs : r.size < 2 ^ 64)
    (hn : r.position + n ≤ r.size) :
    r.tryRead n = some (readBytes r.data r.position n, { r with position := r.position + n }) := by
  have hsub := sizeSub_of_le hs h
  unfold tryRead
  generalize sizeSub r.size r.position = left at hsub
  exact if_neg (by omega)

theorem tryRead_of_short (h : r.position ≤ r.size) (hs : r.size < 2 ^ 64)
    (hn : r.size < r.position + n) : r.tryRead n = none := by
  have hsub := sizeSub_of_le hs h
  unfold tryRead
  generalize sizeSub r.size r.position = left at hsub
  exact if_pos (by omega)

theorem tryReadString_of_short (h : r.position ≤ r.size) (hs : r.size < 2 ^ 64)
    (hn : r.size < r.position + 2) : r.tryReadString = (none, r) := by
  rw [tryReadString_eq]
  exact stringWith_of_none (tryRead_of_short h hs hn)

theorem tryReadString_of_cut (h : r.position ≤ r.size) (hs : r.size < 2 ^ 64)
    (hn : r.position + 2 ≤ r.size)
    (hcut : r.size < r.position + 2 + readLE r.data r.position 2) :
    r.tryReadString = (none, { r with position := r.position + 2 }) := by
  rw [tryReadString_eq]
  exact stringWith_of_cut (tryRead_of_fits h hs hn)
    (tryRead_of_short (r := { r with position := r.position + 2 }) hn hs hcut)

theorem tryReadString_of_fits (h : r.position ≤ r.size) (hs : r.size < 2 ^ 64)
    (hn : r.position + 2 + readLE r.data r.position 2 ≤ r.size) :
    r.tryReadString =
      (some (readBytes r.data (r.position + 2) (readLE r.data r.position 2)),
        { r with position := r.position + 2 + readLE r.data r.position 2 }) := by
  have hprefix : r.position + 2 ≤ r.size := by omega
  rw [tryReadString_eq]
  exact stringWith_of_some (tryRead_of_fits h hs hprefix)
    (tryRead_of_fits (r := { r with position := r.position + 2 }) hprefix hs hn)

theorem length_of_tryRead {r' : NetDataReader} {bytes : Bytes} (h : r.tryRead n = some (bytes, r')) :
    bytes.length ≤ n := by
  unfold tryRead at h
  generalize sizeSub r.size r.position = left at h
  by_cases hleft : left < n
  · rw [if_pos hleft] at h
    cases h
  · rw [if_neg hleft, Option.some.injEq, Prod.mk.injEq] at h
    rw [← h.1]
    exact List.length_take_le _ _

/-- A length field has no room for the length of a longer string. -/
theorem length_of_tryReadString {bytes : Bytes} (h : r.tryReadString.1 = some bytes) :
    bytes.length < 65536 := by
  rw [tryReadString_eq] at h
  obtain ⟨length, r', r'', hlength, hbytes⟩ := stringWith_eq_some h
  have hfield := length_of_tryRead hlength
  calc bytes.length ≤ ofLEBytes length := length_of_tryRead hbytes
    _ < 256 ^ length.length := ofLEBytes_lt length
    _ ≤ 256 ^ 2 := Nat.pow_le_pow_right (by norm_num) hfield

end Boundaries

/-- A string is read whose length field fits and whose bytes do not. -/
def CutString (r : NetDataReader) (c : ReadCall) : Prop :=
  c = .string ∧ r.position + 2 ≤ r.size ∧ r.size < r.position + 2 + readLE r.data r.position 2

theorem bytesRead_tryRead_failed {r : NetDataReader} {n : ℕ} (h : r.position ≤ r.size)
    (hs : r.size < 2 ^ 64) (hfailed : (r.bytesRead (r.tryRead n)).1 = none) :
    (r.bytesRead (r.tryRead n)).2 = r := by
  by_cases hn : r.position + n ≤ r.size
  · rw [tryRead_of_fits h hs hn] at hfailed
    cases hfailed
  · rw [tryRead_of_short h hs (by omega)]
    rfl

/-- The bytes of a cut string are found missing when its length field has been consumed. -/
theorem CutString.call {r : NetDataReader} {c : ReadCall} (h : r.CutString c)
    (hs : r.size < 2 ^ 64) : r.call c = (none, { r with position := r.position + 2 }) := by
  obtain ⟨rfl, hn, hcut⟩ := h
  change r.tryReadString = _
  exact tryReadString_of_cut (by omega) hs hn hcut

theorem failed_call {r : NetDataReader} {c : ReadCall} (h : r.position ≤ r.size)
    (hs : r.size < 2 ^ 64) (hcut : ¬ r.CutString c) (hfailed : (r.call c).1 = none) :
    (r.call c).2 = r := by
  cases c with
  | fundamental size => exact bytesRead_tryRead_failed h hs hfailed
  | raw size => exact bytesRead_tryRead_failed h hs hfailed
  | string =>
    change r.tryReadString.1 = none at hfailed
    change r.tryReadString.2 = r
    by_cases hn : r.position + 2 ≤ r.size
    · have hbody : r.position + 2 + readLE r.data r.position 2 ≤ r.size := by
        by_contra hlong
        exact hcut ⟨rfl, hn, by omega⟩
      rw [tryReadString_of_fits h hs hbody] at hfailed
      cases hfailed
    · rw [tryReadString_of_short h hs (by omega)]

/-- A read that returns false leaves the position where it was, and with it the results of all
later reads. -/
def FailedReadConsumesNothing (r : NetDataReader) (c : ReadCall) : Prop :=
  (r.call c).1 = none →
    (r.call c).2.position = r.position ∧
      ∀ later : List ReadCall, ((r.call c).2.calls later).1 = (r.calls later).1

theorem failedReadConsumesNothing_iff (r : NetDataReader) (c : ReadCall)
    (h : r.position ≤ r.size) (hs : r.size < 2 ^ 64) :
    r.FailedReadConsumesNothing c ↔ ¬ r.CutString c := by
  constructor
  · intro hnothing hcut
    rw [FailedReadConsumesNothing, hcut.call hs] at hnothing
    have hposition := (hnothing rfl).1
    simp at hposition
  · intro hcut hfailed
    rw [failed_call h hs hcut hfailed]
    exact ⟨rfl, fun later => rfl⟩

/-- Two bytes of a string whose length field says five. -/
def cutString : NetDataReader := ⟨[5, 0, 104, 105], 4, 0⟩

theorem failedReadConsumesNothing_whole :
    (cutString.position ≤ cutString.size ∧ cutString.size < 2 ^ 64) ∧
      (cutString.FailedReadConsumesNothing (.fundamental 8) ↔
        ¬ cutString.CutString (.fundamental 8)) :=
  ⟨by decide, failedReadConsumesNothing_iff cutString (.fundamental 8) (by decide) (by decide)⟩

/-- The failed string read makes the next read start behind the length field. -/
theorem cutString_consumed :
    ¬ ∀ (r : NetDataReader) (c : ReadCall), r.position ≤ r.size → r.size < 2 ^ 64 →
      r.FailedReadConsumesNothing c := by
  intro h
  have hcut : cutString.CutString .string := ⟨rfl, by decide, by decide⟩
  have hposition := (h cutString .string (by decide) (by decide)
    (congrArg Prod.fst (hcut.call (by decide)))).1
  rw [hcut.call (by decide)] at hposition
  cases hposition

end NetDataReader

/-- A value that both sides have an overload for. -/
inductive Field where
  | fundamental (bytes : Bytes)
  | string (bytes : Bytes)

namespace Field
open NetDataReader

def bytes : Field → Bytes
  | .fundamental bytes => bytes
  | .string bytes => bytes

def value : Field → NetDataWriter.Value
  | .fundamental bytes => .fundamental bytes
  | .string bytes => .string bytes

def readCall : Field → ReadCall
  | .fundamental bytes => .fundamental bytes.length
  | .string _ => .string

/-- The ranges that the writer appends for the fields, behind each other. -/
def appended (fields : List Field) : Bytes :=
  NetDataWriter.written (NetDataWriter.allAccesses (fields.map value))

def encode : Field → Bytes
  | .fundamental bytes => bytes
  | .string bytes => encodeEntry bytes

/-- The length of a string fits its field. -/
def Fits : Field → Prop
  | .fundamental _ => True
  | .string bytes => bytes.length < 65536

theorem written_value (before : List NetDataWriter.Access) (field : Field) :
    NetDataWriter.written (before ++ field.value.accesses) =
      NetDataWriter.written before ++ field.encode := by
  cases field with
  | fundamental bytes => exact NetDataWriter.written_range before bytes
  | string bytes =>
    change NetDataWriter.written (before ++ ([.range (leBytes 2 bytes.length)] ++ [.range bytes])) =
      NetDataWriter.written before ++ (leBytes 2 bytes.length ++ bytes)
    rw [← List.append_assoc, NetDataWriter.written_range, NetDataWriter.written_range,
      List.append_assoc]

theorem appended_eq (fields : List Field) : appended fields = fields.flatMap encode := by
  have hbehind : ∀ before, NetDataWriter.written
      (before ++ NetDataWriter.allAccesses (fields.map value)) =
        NetDataWriter.written before ++ fields.flatMap encode := by
    induction fields with
    | nil => simp [NetDataWriter.allAccesses]
    | cons field fields ih =>
      intro before
      rw [List.map_cons, NetDataWriter.allAccesses, ← List.append_assoc, ih, written_value,
        List.flatMap_cons, List.append_assoc]
  exact hbehind []

theorem readBytes_middle (before middle after : Bytes) :
    readBytes (before ++ middle ++ after) before.length middle.length = middle := by
  rw [readBytes, List.append_assoc, List.drop_left, List.take_left]

/-- The reader behind `position` bytes of what was written. -/
def readerAt (all : Bytes) (position : ℕ) : NetDataReader := ⟨all, all.length, position⟩

/-- A field is read back from where it was written. -/
theorem call_encode {all before after : Bytes} {field : Field} (hfits : field.Fits)
    (hall : all = before ++ field.encode ++ after) (hs : all.length < 2 ^ 64) :
    (readerAt all before.length).call field.readCall =
      (some field.bytes, readerAt all (before ++ field.encode).length) := by
  have hread : readBytes all before.length field.encode.length = field.encode := by
    rw [hall]
    exact readBytes_middle before field.encode after
  have hend : before.length + field.encode.length ≤ all.length := by
    rw [hall, List.length_append, List.length_append]
    exact Nat.le_add_right _ _
  have hposition : before.length ≤ all.length := by omega
  rw [List.length_append]
  cases field with
  | fundamental bytes =>
    have hfield := tryRead_of_fits (r := readerAt all before.length) hposition hs hend
    change bytesRead _ (tryRead _ (encode (.fundamental bytes)).length) = _
    rw [hfield, bytesRead]
    exact congrArg (fun b => (some b, _)) hread
  | string bytes =>
    have hentry : readBytes all before.length (encode (.string bytes)).length =
        encodeEntries [bytes] := hread.trans (List.append_nil _).symm
    obtain ⟨hlength, hbytes, -⟩ := readBytes_encodeEntries hfits hentry
    rw [encode, length_encodeEntry] at hend
    have hfield := tryReadString_of_fits (r := readerAt all before.length) hposition hs
      (by change before.length + 2 + readLE all before.length 2 ≤ all.length; omega)
    change tryReadString _ = (some bytes, _)
    rw [hfield]
    change (some (readBytes all (before.length + 2) (readLE all before.length 2)),
      readerAt all (before.length + 2 + readLE all before.length 2)) = _
    rw [hlength, hbytes, encode, length_encodeEntry, Nat.add_assoc, Nat.add_comm 2]

theorem calls_encode {all before after : Bytes} {fields : List Field}
    (hfits : ∀ field ∈ fields, field.Fits) (hall : all = before ++ fields.flatMap encode ++ after)
    (hs : all.length < 2 ^ 64) :
    (readerAt all before.length).calls (fields.map readCall) =
      (fields.map (fun field => some field.bytes),
        readerAt all (before ++ fields.flatMap encode).length) := by
  induction fields generalizing before with
  | nil =>
    rw [List.flatMap_nil, List.append_nil]
    rfl
  | cons field fields ih =>
    rw [List.flatMap_cons] at hall ⊢
    have hfirst : all = before ++ field.encode ++ (fields.flatMap encode ++ after) :=
      hall.trans (by simp only [List.append_assoc])
    have hothers : all = before ++ field.encode ++ fields.flatMap encode ++ after :=
      hall.trans (by simp only [List.append_assoc])
    have hhead := call_encode (hfits field List.mem_cons_self) hfirst hs
    have htail := ih (fun f hf => hfits f (List.mem_cons_of_mem _ hf)) hothers
    rw [List.map_cons, calls, hhead, htail, List.map_cons, List.append_assoc]

theorem fits_of_calls {r : NetDataReader} {fields : List Field}
    (h : (r.calls (fields.map readCall)).1 = fields.map (fun field => some field.bytes)) :
    ∀ field ∈ fields, field.Fits := by
  induction fields generalizing r with
  | nil => simp
  | cons field fields ih =>
    rw [List.map_cons, calls, List.map_cons, List.cons.injEq] at h
    refine List.forall_mem_cons.mpr ⟨?_, ih h.2⟩
    cases field with
    | fundamental bytes => trivial
    | string bytes => exact length_of_tryReadString h.1

/-- Every call succeeds with the written value, and nothing is left. -/
def ReadsBack (fields : List Field) : Prop :=
  ((readerAt (appended fields) 0).calls (fields.map readCall)).1 =
      fields.map (fun field => some field.bytes) ∧
    ((readerAt (appended fields) 0).calls (fields.map readCall)).2.remaining = 0

theorem readsBack_iff (fields : List Field) (hs : (appended fields).length < 2 ^ 64) :
    ReadsBack fields ↔ ∀ bytes : Bytes, string bytes ∈ fields → bytes.length < 65536 := by
  constructor
  · rintro ⟨hresults, -⟩ bytes hmem
    exact fits_of_calls hresults (string bytes) hmem
  · intro hshort
    have hfits : ∀ field ∈ fields, field.Fits := by
      intro field hmem
      cases field with
      | fundamental bytes => trivial
      | string bytes => exact hshort bytes hmem
    have hall : appended fields = [] ++ fields.flatMap encode ++ [] := by
      rw [appended_eq, List.nil_append, List.append_nil]
    have hcalls := calls_encode hfits hall hs
    rw [List.length_nil, List.nil_append, ← appended_eq] at hcalls
    rw [ReadsBack, hcalls]
    refine ⟨rfl, ?_⟩
    change sizeSub (appended fields).length (appended fields).length = 0
    rw [sizeSub_of_le hs le_rfl, Nat.sub_self]

/-- A number and two strings. -/
theorem readsBack_mixed :
    ReadsBack [.fundamental [1, 2, 3, 4], .string [104, 105], .string []] ↔
      ∀ bytes : Bytes, string bytes ∈ [.fundamental [1, 2, 3, 4], .string [104, 105], .string []] →
        bytes.length < 65536 :=
  readsBack_iff _ (by decide)

/-- A string of 65536 bytes is read back as the empty one. -/
theorem longString_lost :
    ¬ ∀ fields : List Field, (appended fields).length < 2 ^ 64 → ReadsBack fields := by
  intro h
  have hs : (appended [.string (List.replicate 65536 0)]).length < 2 ^ 64 := by
    rw [appended_eq, List.flatMap_singleton, encode, length_encodeEntry, List.length_replicate]
    norm_num
  have hfits := fits_of_calls (h _ hs).1 _ List.mem_cons_self
  rw [Fits, List.length_replicate] at hfits
  omega

end Field

end LiteNet.Wire
