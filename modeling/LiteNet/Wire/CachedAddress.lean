import Mathlib.Data.List.DropRight
import LiteNet.Library.Transition
import LiteNet.Wire.Address

/-! # The texts that an address remembers

An address keeps the text of its host, the text with its port, and the raw value
that it compared last. The raw field is public, and each text is used again while
the raw field is what was compared last, whatever it was made for.
-/

namespace LiteNet.Wire
open Library

def afInet : UInt16 := 2

def inetAddrStrLen : ℕ := 16

/-- `htons` and `ntohs`. -/
def swapBytes (port : UInt16) : UInt16 := (port <<< 8) ||| (port >>> 8)

/-- `std::to_string`. -/
def decimal (n : ℕ) : Bytes := (Nat.toDigits 10 n).map (fun c => UInt8.ofNat c.toNat)

/-- The two functions of the system library that an address uses. The text of a host is put with
a zero behind it into a buffer of `inetAddrStrLen + 1` bytes. -/
structure AddressLibrary where
  inetNtop : UInt16 → UInt32 → Option Bytes
  inetNtop_fits : ∀ {family addr text}, inetNtop family addr = some text →
    text.length ≤ inetAddrStrLen
  inetNtop_noNul : ∀ {family addr text}, inetNtop family addr = some text → 0 ∉ text
  /-- the `ai_family` and `ai_addr` of each result -/
  getaddrinfo : String → Option (List (UInt16 × NetAddress))

/-- `std::string::resize`, with zeros. -/
def resizeText (text : Bytes) (size : ℕ) : Bytes :=
  text.take size ++ List.replicate (size - text.length) 0

/-- `erase` from behind the last byte that is not zero. -/
def eraseZeros (text : Bytes) : Bytes := text.rdropWhile (fun b => b = 0)

structure CachedAddress where
  raw : NetAddress
  cachedAddress : Bytes
  cachedStringRepresentation : Bytes
  oldAddr : NetAddress

namespace CachedAddress

def new (raw : NetAddress) : CachedAddress := ⟨raw, [], [], ⟨0, 0, 0, 0⟩⟩

def port (a : CachedAddress) : UInt16 := swapBytes a.raw.port

def setPort (a : CachedAddress) (port : UInt16) : CachedAddress :=
  { a with raw := { a.raw with port := swapBytes port } }

def setAddress (lib : AddressLibrary) (a : CachedAddress) (address : String) : CachedAddress :=
  match lib.getaddrinfo address with
  | none => a
  | some result =>
    let found :=
      match result.find? (fun entry => entry.1 = afInet) with
      | none => a
      | some entry => { a with raw := entry.2 }
    found.setPort a.port

def compareAndUpdateAddr (a : CachedAddress) : Bool × CachedAddress :=
  if a.raw = a.oldAddr then (true, a) else (false, { a with oldAddr := a.raw })

/-- The test with which both functions begin; an empty text is not compared. -/
def usesCached (a : CachedAddress) (cached : Bytes) : Bool × CachedAddress :=
  if cached.isEmpty then (false, a) else a.compareAndUpdateAddr

/-- What is left in the buffer of the cached text by `inet_ntop`, which writes nothing when it
fails. -/
def renderInto (lib : AddressLibrary) (cached : Bytes) (raw : NetAddress) : Bytes :=
  let buffer := resizeText cached (inetAddrStrLen + 1)
  eraseZeros <|
    match lib.inetNtop raw.family raw.addr with
    | none => buffer
    | some text => writeBytes buffer 0 (text ++ [0])

def address (lib : AddressLibrary) (a : CachedAddress) : Bytes × CachedAddress :=
  let check := a.usesCached a.cachedAddress
  if check.1 then (check.2.cachedAddress, check.2)
  else
    let text := renderInto lib check.2.cachedAddress check.2.raw
    (text, { check.2 with cachedAddress := text, cachedStringRepresentation := [] })

def toString (lib : AddressLibrary) (a : CachedAddress) : Bytes × CachedAddress :=
  let check := a.usesCached a.cachedStringRepresentation
  if check.1 then (check.2.cachedStringRepresentation, check.2)
  else
    let made := { check.2 with cachedAddress := [] }.address lib
    let text := made.1 ++ [58] ++ decimal made.2.port.toNat
    (text, { made.2 with cachedStringRepresentation := text })

inductive Op where
  | assignRaw (raw : NetAddress)
  | setPort (port : UInt16)
  | setAddress (address : String)
  | address
  | toString

def apply (lib : AddressLibrary) (a : CachedAddress) : Op → CachedAddress
  | .assignRaw raw => { a with raw := raw }
  | .setPort port => a.setPort port
  | .setAddress address => a.setAddress lib address
  | .address => (a.address lib).2
  | .toString => (a.toString lib).2

def run (lib : AddressLibrary) (a : CachedAddress) (ops : List Op) : CachedAddress :=
  ops.foldl (apply lib) a

/-- The text of the host, empty where `inet_ntop` fails. -/
def hostText (lib : AddressLibrary) (raw : NetAddress) : Bytes :=
  (lib.inetNtop raw.family raw.addr).getD []

def fullText (lib : AddressLibrary) (raw : NetAddress) : Bytes :=
  hostText lib raw ++ [58] ++ decimal (swapBytes raw.port).toNat

/-- A call returns the text of the current raw field. -/
def Serves (lib : AddressLibrary) (a : CachedAddress) : Op → Prop
  | .address => (a.address lib).1 = hostText lib a.raw
  | .toString => (a.toString lib).1 = fullText lib a.raw
  | _ => True

/-- An address together with the raw value that its texts were made for last. -/
structure Traced where
  object : CachedAddress
  madeFor : NetAddress

/-- Whether a call makes its text anew. -/
def makes (a : CachedAddress) : Op → Bool
  | .address => !(a.usesCached a.cachedAddress).1
  | .toString => !(a.usesCached a.cachedStringRepresentation).1
  | _ => false

def Traced.apply (lib : AddressLibrary) (t : Traced) (op : Op) : Traced :=
  ⟨t.object.apply lib op, if t.object.makes op then t.object.raw else t.madeFor⟩

def trace (lib : AddressLibrary) (raw : NetAddress) (ops : List Op) : Traced :=
  ops.foldl (Traced.apply lib) ⟨new raw, raw⟩

/-- The cached text that a call would return was made for an address with the same text, and where
`address` makes it anew over an old one, the new text covers the old one up to one byte. -/
def Traced.NotStale (lib : AddressLibrary) (t : Traced) : Op → Prop
  | .address => t.object.cachedAddress = [] ∨
      (t.object.raw = t.object.oldAddr ∧ hostText lib t.object.raw = hostText lib t.madeFor) ∨
      (t.object.raw ≠ t.object.oldAddr ∧
        ∃ text, lib.inetNtop t.object.raw.family t.object.raw.addr = some text ∧
          t.object.cachedAddress.length ≤ text.length + 1)
  | .toString => t.object.cachedStringRepresentation = [] ∨
      t.object.raw ≠ t.object.oldAddr ∨ fullText lib t.object.raw = fullText lib t.madeFor
  | _ => True

theorem trace_object (lib : AddressLibrary) (raw : NetAddress) (ops : List Op) :
    (trace lib raw ops).object = run lib (new raw) ops := by
  induction ops using List.reverseRecOn with
  | nil => rfl
  | append_singleton before op ih =>
    rw [trace, run, List.foldl_append, List.foldl_append]
    exact congrArg (fun a => apply lib a op) ih

section Buffer

variable {lib : AddressLibrary} {cached text : Bytes} {raw : NetAddress}

theorem eraseZeros_append_zeros (text : Bytes) (n : ℕ) :
    eraseZeros (text ++ List.replicate n 0) = eraseZeros text := by
  induction n with
  | zero => rw [List.replicate_zero, List.append_nil]
  | succ n ih =>
    rw [List.replicate_succ', ← List.append_assoc, eraseZeros,
      List.rdropWhile_concat_pos _ _ _ (by simp)]
    exact ih

theorem eraseZeros_of_noNul (h : 0 ∉ text) : eraseZeros text = text := by
  rw [eraseZeros, List.rdropWhile_eq_self_iff]
  intro hne hlast
  have hzero : text.getLast hne = 0 := by simpa using hlast
  exact h (hzero ▸ List.getLast_mem hne)

/-- A write at the start keeps what lies behind it. -/
theorem writeBytes_start (d bs : Bytes) (h : bs.length ≤ d.length) :
    writeBytes d 0 bs = bs ++ d.drop bs.length := by
  apply List.ext_getElem?
  intro i
  rw [getElem?_writeBytes]
  by_cases hi : i < bs.length
  · rw [if_pos (by omega), List.getElem?_append_left hi, Nat.sub_zero]
  · rw [if_neg (by omega), List.getElem?_append_right (by omega), List.getElem?_drop]
    congr 1
    omega

theorem hostText_noNul (lib : AddressLibrary) (raw : NetAddress) : 0 ∉ hostText lib raw := by
  rw [hostText]
  cases hntop : lib.inetNtop raw.family raw.addr with
  | none => simp
  | some text => exact lib.inetNtop_noNul hntop

theorem length_hostText (lib : AddressLibrary) (raw : NetAddress) :
    (hostText lib raw).length ≤ inetAddrStrLen := by
  rw [hostText]
  cases hntop : lib.inetNtop raw.family raw.addr with
  | none => simp
  | some text => exact lib.inetNtop_fits hntop

theorem renderInto_of_none (h : 0 ∉ cached) (hlength : cached.length ≤ inetAddrStrLen)
    (hntop : lib.inetNtop raw.family raw.addr = none) : renderInto lib cached raw = cached := by
  rw [renderInto, hntop, resizeText, List.take_of_length_le (by omega)]
  exact (eraseZeros_append_zeros _ _).trans (eraseZeros_of_noNul h)

theorem renderInto_of_some (hlength : cached.length ≤ inetAddrStrLen)
    (hntop : lib.inetNtop raw.family raw.addr = some text) :
    renderInto lib cached raw = eraseZeros (text ++ [0] ++ cached.drop (text.length + 1)) := by
  have hfits := lib.inetNtop_fits hntop
  have hbuffer : (resizeText cached (inetAddrStrLen + 1)).length = inetAddrStrLen + 1 := by
    simp only [resizeText, List.length_append, List.length_take, List.length_replicate]
    omega
  have hdrop : (resizeText cached (inetAddrStrLen + 1)).drop (text.length + 1) =
      cached.drop (text.length + 1) ++
        List.replicate (inetAddrStrLen + 1 - cached.length - (text.length + 1 - cached.length)) 0 := by
    rw [resizeText, List.take_of_length_le (by omega), List.drop_append, List.drop_replicate]
  rw [renderInto, hntop]
  dsimp only
  rw [writeBytes_start _ _ (by rw [hbuffer, List.length_append, List.length_singleton]; omega),
    List.length_append, List.length_singleton, hdrop, ← List.append_assoc, eraseZeros_append_zeros]

theorem renderInto_nil (lib : AddressLibrary) (raw : NetAddress) :
    renderInto lib [] raw = hostText lib raw := by
  rw [hostText]
  cases hntop : lib.inetNtop raw.family raw.addr with
  | none => exact renderInto_of_none List.not_mem_nil (Nat.zero_le _) hntop
  | some text =>
    rw [renderInto_of_some (Nat.zero_le _) hntop, List.drop_nil, List.append_nil]
    exact (eraseZeros_append_zeros text 1).trans (eraseZeros_of_noNul (lib.inetNtop_noNul hntop))

/-- A text made over an old one is right when it covers the old one up to one byte. -/
theorem renderInto_eq_iff (h : 0 ∉ cached) (hne : cached ≠ [])
    (hlength : cached.length ≤ inetAddrStrLen) :
    renderInto lib cached raw = hostText lib raw ↔
      ∃ text, lib.inetNtop raw.family raw.addr = some text ∧ cached.length ≤ text.length + 1 := by
  rw [hostText]
  cases hntop : lib.inetNtop raw.family raw.addr with
  | none =>
    rw [renderInto_of_none h hlength hntop]
    simp [hne]
  | some text =>
    have hnoNul := lib.inetNtop_noNul hntop
    rw [renderInto_of_some hlength hntop, Option.getD_some]
    simp only [Option.some.injEq, exists_eq_left']
    constructor
    · intro heq
      by_contra hlong
      have hrest : cached.drop (text.length + 1) ≠ [] := by
        rw [Ne, List.drop_eq_nil_iff]
        omega
      have hall : eraseZeros (text ++ [0] ++ cached.drop (text.length + 1)) =
          text ++ [0] ++ cached.drop (text.length + 1) := by
        rw [eraseZeros, List.rdropWhile_eq_self_iff]
        intro hl hlast
        rw [List.getLast_append_of_right_ne_nil _ _ hrest] at hlast
        have hzero : (cached.drop (text.length + 1)).getLast hrest = 0 := by simpa using hlast
        exact h (List.mem_of_mem_drop (hzero ▸ List.getLast_mem hrest))
      rw [hall] at heq
      have hlengths := congrArg List.length heq
      simp only [List.length_append, List.length_singleton] at hlengths
      omega
    · intro hcover
      rw [List.drop_eq_nil_of_le hcover, List.append_nil]
      exact (eraseZeros_append_zeros text 1).trans (eraseZeros_of_noNul hnoNul)

end Buffer

section Calls

variable {lib : AddressLibrary} {a : CachedAddress} {cached : Bytes}

theorem usesCached_nil (a : CachedAddress) : a.usesCached [] = (false, a) := rfl

theorem usesCached_hit (hne : cached ≠ []) (hold : a.raw = a.oldAddr) :
    a.usesCached cached = (true, a) := by
  rw [usesCached, if_neg (by simpa using hne), compareAndUpdateAddr, if_pos hold]

theorem usesCached_changed (hne : cached ≠ []) (hold : a.raw ≠ a.oldAddr) :
    a.usesCached cached = (false, { a with oldAddr := a.raw }) := by
  rw [usesCached, if_neg (by simpa using hne), compareAndUpdateAddr, if_neg hold]

theorem address_of_nil (hc : a.cachedAddress = []) :
    a.address lib = (hostText lib a.raw,
      { a with cachedAddress := hostText lib a.raw, cachedStringRepresentation := [] }) := by
  rw [address, hc, usesCached_nil]
  dsimp only
  rw [if_neg Bool.false_ne_true, hc, renderInto_nil]

theorem address_of_hit (hc : a.cachedAddress ≠ []) (hold : a.raw = a.oldAddr) :
    a.address lib = (a.cachedAddress, a) := by
  rw [address, usesCached_hit hc hold]
  exact if_pos rfl

theorem address_of_changed (hc : a.cachedAddress ≠ []) (hold : a.raw ≠ a.oldAddr) :
    a.address lib = (renderInto lib a.cachedAddress a.raw,
      { a with
        oldAddr := a.raw
        cachedAddress := renderInto lib a.cachedAddress a.raw
        cachedStringRepresentation := [] }) := by
  rw [address, usesCached_changed hc hold]
  exact if_neg Bool.false_ne_true

theorem toString_of_hit (hs : a.cachedStringRepresentation ≠ []) (hold : a.raw = a.oldAddr) :
    a.toString lib = (a.cachedStringRepresentation, a) := by
  rw [toString, usesCached_hit hs hold]
  exact if_pos rfl

/-- Where `to_string` does not use its text, it makes both texts anew. -/
theorem toString_of_made (lib : AddressLibrary) (a : CachedAddress)
    (hcheck : (a.usesCached a.cachedStringRepresentation).1 = false) :
    (a.toString lib).1 = fullText lib a.raw ∧ (a.toString lib).2.raw = a.raw ∧
      (a.toString lib).2.cachedAddress = hostText lib a.raw ∧
      (a.toString lib).2.cachedStringRepresentation = fullText lib a.raw := by
  have hraw : (a.usesCached a.cachedStringRepresentation).2.raw = a.raw := by
    rw [usesCached, compareAndUpdateAddr]
    split_ifs <;> rfl
  rw [toString, hcheck]
  dsimp only
  rw [if_neg Bool.false_ne_true, address_of_nil rfl, port]
  dsimp only
  rw [hraw]
  exact ⟨rfl, rfl, rfl, rfl⟩

end Calls

/-- The cached texts are empty or those of the address they were made for. -/
structure Traced.Fresh (lib : AddressLibrary) (t : Traced) : Prop where
  host : t.object.cachedAddress = [] ∨ t.object.cachedAddress = hostText lib t.madeFor
  full : t.object.cachedStringRepresentation = [] ∨
    t.object.cachedStringRepresentation = fullText lib t.madeFor

section Steps

variable {lib : AddressLibrary} {t : Traced}

theorem fullText_ne_nil (lib : AddressLibrary) (raw : NetAddress) : fullText lib raw ≠ [] := by
  simp [fullText]

theorem Traced.Fresh.cachedAddress_bounds (h : t.Fresh lib) :
    0 ∉ t.object.cachedAddress ∧ t.object.cachedAddress.length ≤ inetAddrStrLen := by
  rcases h.host with hc | hc
  · simp [hc]
  · rw [hc]
    exact ⟨hostText_noNul lib t.madeFor, length_hostText lib t.madeFor⟩

theorem Traced.Fresh.address_iff (h : t.Fresh lib) :
    Serves lib t.object .address ↔ t.NotStale lib .address := by
  rw [Serves, Traced.NotStale]
  by_cases hc : t.object.cachedAddress = []
  · rw [address_of_nil hc]
    simp [hc]
  · by_cases hold : t.object.raw = t.object.oldAddr
    · rw [address_of_hit hc hold, or_iff_right hc, or_iff_left (fun hnew => hnew.1 hold),
        and_iff_right hold, h.host.resolve_left hc]
      exact eq_comm
    · obtain ⟨hnoNul, hlength⟩ := h.cachedAddress_bounds
      rw [address_of_changed hc hold, or_iff_right hc, or_iff_right (fun hhit => hold hhit.1),
        and_iff_right hold]
      exact renderInto_eq_iff hnoNul hc hlength

theorem Traced.Fresh.toString_iff (h : t.Fresh lib) :
    Serves lib t.object .toString ↔ t.NotStale lib .toString := by
  rw [Serves, Traced.NotStale]
  by_cases hs : t.object.cachedStringRepresentation = []
  · have hmade := toString_of_made lib t.object (by rw [hs, usesCached_nil])
    simp [hs, hmade.1]
  · by_cases hold : t.object.raw = t.object.oldAddr
    · rw [toString_of_hit hs hold, h.full.resolve_left hs]
      simp only [fullText_ne_nil, hold, ne_eq, not_true_eq_false, false_or]
      exact eq_comm
    · have hmade := toString_of_made lib t.object (by rw [usesCached_changed hs hold])
      simp [hold, hmade.1]

theorem Traced.Fresh.serves_iff (h : t.Fresh lib) (op : Op) :
    Serves lib t.object op ↔ t.NotStale lib op := by
  cases op with
  | address => exact h.address_iff
  | toString => exact h.toString_iff
  | assignRaw raw => exact Iff.rfl
  | setPort port => exact Iff.rfl
  | setAddress address => exact Iff.rfl

/-- An `address` call that returns the right text leaves fresh texts behind. -/
theorem Traced.Fresh.apply_address (h : t.Fresh lib) (hserves : Serves lib t.object .address) :
    (t.apply lib .address).Fresh lib := by
  rw [Serves] at hserves
  rw [Traced.apply, makes, CachedAddress.apply]
  by_cases hc : t.object.cachedAddress = []
  · rw [address_of_nil hc, hc, usesCached_nil]
    exact ⟨.inr rfl, .inl rfl⟩
  · by_cases hold : t.object.raw = t.object.oldAddr
    · rw [address_of_hit hc hold, usesCached_hit hc hold]
      exact ⟨h.host, h.full⟩
    · rw [address_of_changed hc hold] at hserves ⊢
      rw [usesCached_changed hc hold]
      exact ⟨.inr hserves, .inl rfl⟩

theorem Traced.Fresh.apply_toString (h : t.Fresh lib) : (t.apply lib .toString).Fresh lib := by
  rw [Traced.apply, makes, CachedAddress.apply]
  cases hcheck : (t.object.usesCached t.object.cachedStringRepresentation).1 with
  | false =>
    obtain ⟨-, -, hhost, hfull⟩ := toString_of_made lib t.object hcheck
    exact ⟨.inr hhost, .inr hfull⟩
  | true =>
    have hs : t.object.cachedStringRepresentation ≠ [] := by
      intro hs
      rw [hs, usesCached_nil] at hcheck
      cases hcheck
    have hold : t.object.raw = t.object.oldAddr := by
      by_contra hold
      rw [usesCached_changed hs hold] at hcheck
      cases hcheck
    rw [toString_of_hit hs hold]
    exact ⟨h.host, h.full⟩

theorem setAddress_texts (lib : AddressLibrary) (a : CachedAddress) (address : String) :
    (a.setAddress lib address).cachedAddress = a.cachedAddress ∧
      (a.setAddress lib address).cachedStringRepresentation = a.cachedStringRepresentation := by
  rw [setAddress]
  cases lib.getaddrinfo address with
  | none => exact ⟨rfl, rfl⟩
  | some result =>
    dsimp only
    cases result.find? (fun entry => entry.1 = afInet) with
    | none => exact ⟨rfl, rfl⟩
    | some entry => exact ⟨rfl, rfl⟩

theorem Traced.Fresh.apply (h : t.Fresh lib) {op : Op} (hserves : Serves lib t.object op) :
    (t.apply lib op).Fresh lib := by
  cases op with
  | address => exact h.apply_address hserves
  | toString => exact h.apply_toString
  | assignRaw raw => exact ⟨h.host, h.full⟩
  | setPort port => exact ⟨h.host, h.full⟩
  | setAddress address =>
    obtain ⟨hhost, hfull⟩ := setAddress_texts lib t.object address
    exact ⟨hhost ▸ h.host, hfull ▸ h.full⟩

end Steps

section Histories

variable (lib : AddressLibrary) (raw : NetAddress)

/-- As long as every call returned the right text, the cached texts are fresh. -/
theorem fresh_of_serves (ops : List Op)
    (h : ∀ before op, before ++ [op] <+: ops → Serves lib (run lib (new raw) before) op) :
    (trace lib raw ops).Fresh lib := by
  induction ops using List.reverseRecOn with
  | nil => exact ⟨.inl rfl, .inl rfl⟩
  | append_singleton before op ih =>
    obtain ⟨hbefore, hlast⟩ := (forall_prefix_concat before op).mp h
    rw [trace, List.foldl_append]
    refine (ih hbefore).apply ?_
    rw [trace_object]
    exact hlast

/-- In every history, all calls return the texts of the current raw field exactly when no call
finds a stale text. -/
theorem serves_iff_notStale (ops : List Op) :
    (∀ before op, before ++ [op] <+: ops → Serves lib (run lib (new raw) before) op) ↔
      ∀ before op, before ++ [op] <+: ops → (trace lib raw before).NotStale lib op := by
  induction ops using List.reverseRecOn with
  | nil => simp
  | append_singleton before op ih =>
    rw [forall_prefix_concat, forall_prefix_concat, ← ih]
    refine and_congr_right (fun hserves => ?_)
    rw [← trace_object]
    exact (fresh_of_serves lib raw before hserves).serves_iff op

end Histories

def dotted (addr : UInt32) : Bytes :=
  [46].intercalate ((leBytes 4 addr.toNat).map (fun b => decimal b.toNat))

theorem decimal_byte : ∀ b : UInt8, (decimal b.toNat).length ≤ 3 ∧ 0 ∉ decimal b.toNat :=
  forall_uint8 (by decide +kernel)

theorem dotted_bounds (addr : UInt32) : (dotted addr).length ≤ inetAddrStrLen ∧ 0 ∉ dotted addr := by
  simp only [dotted, leBytes, List.map_cons, List.map_nil, List.intercalate, List.intersperse,
    List.flatten_cons, List.flatten_nil, List.length_append, List.length_singleton, List.length_nil,
    List.mem_append, List.mem_singleton, List.not_mem_nil, inetAddrStrLen]
  generalize UInt8.ofNat _ = a
  generalize UInt8.ofNat _ = b
  generalize UInt8.ofNat _ = c
  generalize UInt8.ofNat _ = d
  obtain ⟨ha, ha'⟩ := decimal_byte a
  obtain ⟨hb, hb'⟩ := decimal_byte b
  obtain ⟨hc, hc'⟩ := decimal_byte c
  obtain ⟨hd, hd'⟩ := decimal_byte d
  refine ⟨by omega, ?_⟩
  simp [ha', hb', hc', hd']

theorem dotted_of_eq_some {family : UInt16} {addr : UInt32} {text : Bytes}
    (h : (if family = afInet then some (dotted addr) else none) = some text) :
    text = dotted addr := by
  split_ifs at h
  exact (Option.some.inj h).symm

/-- A system that knows the dotted decimals and resolves no name. -/
def dottedLibrary : AddressLibrary where
  inetNtop family addr := if family = afInet then some (dotted addr) else none
  inetNtop_fits h := dotted_of_eq_some h ▸ (dotted_bounds _).1
  inetNtop_noNul h := dotted_of_eq_some h ▸ (dotted_bounds _).2
  getaddrinfo _ := none

/-- The host 10.0.0.1. -/
def firstAddr : NetAddress := ⟨afInet, 0, 0x0100000a, 0⟩

/-- The host 10.0.0.2. -/
def secondAddr : NetAddress := ⟨afInet, 0, 0x0200000a, 0⟩

/-- The first address is rendered and remembered; the second is rendered by `to_string` without
being remembered. -/
def returning : List Op :=
  [.address, .address, .assignRaw secondAddr, .toString, .assignRaw firstAddr]

/-- Back at the first address, `address` returns the text of the second. -/
theorem returning_stale :
    ¬ ∀ (lib : AddressLibrary) (raw : NetAddress) (ops : List Op),
      ∀ before op, before ++ [op] <+: ops → Serves lib (run lib (new raw) before) op := by
  intro h
  have hstale : ((run dottedLibrary (new firstAddr) returning).address dottedLibrary).1 ≠
      hostText dottedLibrary firstAddr := by decide +kernel
  exact hstale (h dottedLibrary firstAddr (returning ++ [.address]) returning .address
    List.prefix_rfl)

/-- `127.0.0.1` made over `192.168.100.200` keeps the tail of the longer text. -/
example : (run dottedLibrary (new ⟨afInet, 0, 0xc864a8c0, 0⟩)
      [.address, .assignRaw ⟨afInet, 0, 0x0100007f, 0⟩, .address]).cachedAddress =
    hostText dottedLibrary ⟨afInet, 0, 0x0100007f, 0⟩ ++ [0] ++ [48, 46, 50, 48, 48] := by
  decide +kernel

end CachedAddress

end LiteNet.Wire
