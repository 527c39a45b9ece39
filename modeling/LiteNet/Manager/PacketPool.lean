import LiteNet.Library.LinkedList
import LiteNet.Library.Transition
import LiteNet.Manager.State

/-! # The packet pool

Packets are objects linked through their own `m_next`, and the pool is the first of
them and a counter. `pool_recycle` takes the mutex only to link the packet, so its
two halves are steps of their own here; `pool_get_packet` is one step, as nobody
else knows the packet when it is resized.
-/

namespace LiteNet.Manager
open Library Wire

/-- Where the pointer to a packet is. A packet is `cleared` between the two halves of
`pool_recycle`. -/
inductive PacketStage where
  | absent
  | held
  | cleared
  | pooled
  | deleted
  deriving DecidableEq

structure PacketPool where
  packetPoolSize : ℕ
  packetAt : ℕ → NetPacket
  next : ℕ → Option ℕ
  head : Option ℕ
  /-- `m_packet_pool_size` -/
  size : ℕ
  allocated : ℕ
  stage : ℕ → PacketStage

namespace PacketPool

def new (packetPoolSize : ℕ) : PacketPool where
  packetPoolSize := packetPoolSize
  packetAt := fun _ => .empty
  next := fun _ => none
  head := none
  size := 0
  allocated := 0
  stage := fun _ => .absent

def poolGetPacket (pool : PacketPool) (size : ℕ) : ℕ × PacketPool :=
  match pool.head with
  | none =>
    let result := pool.allocated
    (result, { pool with
      allocated := result + 1
      packetAt := Function.update pool.packetAt result (NetPacket.empty.resize size)
      next := Function.update pool.next result none
      stage := Function.update pool.stage result .held })
  | some result =>
    (result, { pool with
      head := pool.next result
      size := pool.size - 1
      packetAt := Function.update pool.packetAt result ((pool.packetAt result).resize size)
      stage := Function.update pool.stage result .held })

/-- `pool_recycle` up to the mutex. -/
def recycleCheck (pool : PacketPool) (packet : ℕ) : PacketPool :=
  if maxPacketSize < (pool.packetAt packet).bufferSize ∨ pool.packetPoolSize ≤ pool.size then
    { pool with stage := Function.update pool.stage packet .deleted }
  else
    { pool with
      packetAt := Function.update pool.packetAt packet (pool.packetAt packet).clear
      stage := Function.update pool.stage packet .cleared }

/-- `pool_recycle` under the mutex. -/
def recyclePush (pool : PacketPool) (packet : ℕ) : PacketPool :=
  { pool with
    next := Function.update pool.next packet pool.head
    head := some packet
    size := pool.size + 1
    stage := Function.update pool.stage packet .pooled }

/-- `pool_recycle` of a packet without a step of anybody else in between. -/
def poolRecycle (pool : PacketPool) (packet : ℕ) : PacketPool :=
  let checked := pool.recycleCheck packet
  if checked.stage packet = .cleared then checked.recyclePush packet else checked

/-- The steps of all threads. Who holds a packet may do with it what they like; buffers only
grow. -/
inductive PoolStep where
  | get (size : ℕ)
  | use (packet : ℕ) (contents : NetPacket)
  | check (packet : ℕ)
  | push (packet : ℕ)

def apply (pool : PacketPool) : PoolStep → PacketPool
  | .get size => (pool.poolGetPacket size).2
  | .use packet contents =>
    { pool with packetAt := Function.update pool.packetAt packet contents }
  | .check packet => pool.recycleCheck packet
  | .push packet => pool.recyclePush packet

def Allowed (pool : PacketPool) : PoolStep → Prop
  | .get size => size ≤ maxPacketSize
  | .use packet contents =>
    pool.stage packet = .held ∧ (pool.packetAt packet).bufferSize ≤ contents.bufferSize
  | .check packet => pool.stage packet = .held
  | .push packet => pool.stage packet = .cleared

def run (pool : PacketPool) (steps : List PoolStep) : PacketPool := steps.foldl apply pool

/-- From the head stand the packets in the pool, once each, and the counter counts them; they and
the cleared packets are zero. -/
structure Sound (pool : PacketPool) (l : List ℕ) : Prop where
  linked : Linked pool.next pool.head l
  nodup : l.Nodup
  counter : pool.size = l.length
  pooled : ∀ packet, packet ∈ l ↔ pool.stage packet = .pooled
  zero : ∀ packet, pool.stage packet = .pooled ∨ pool.stage packet = .cleared →
    ∀ i, (pool.packetAt packet).byte i = 0
  absent : ∀ packet, pool.stage packet = .absent ↔ pool.allocated ≤ packet

theorem new_sound (packetPoolSize : ℕ) : (new packetPoolSize).Sound [] where
  linked := rfl
  nodup := List.nodup_nil
  counter := rfl
  pooled := by simp [new]
  zero := by simp [new]
  absent := by simp [new]

section Sound

variable {pool : PacketPool} {l : List ℕ} {packet : ℕ}

/-- What becomes of a packet that no list has changes nothing in the list. -/
theorem Sound.setStage (h : pool.Sound l) {stage : PacketStage} (contents : NetPacket)
    (hbefore : pool.stage packet = .held ∨ pool.stage packet = .cleared)
    (hafter : stage = .held ∨ stage = .deleted ∨ stage = .cleared ∧ ∀ i, contents.byte i = 0) :
    Sound { pool with
      packetAt := Function.update pool.packetAt packet contents
      stage := Function.update pool.stage packet stage } l := by
  have hpooled : pool.stage packet ≠ .pooled := by
    rcases hbefore with hbefore | hbefore <;> simp [hbefore]
  have habsent : pool.stage packet ≠ .absent := by
    rcases hbefore with hbefore | hbefore <;> simp [hbefore]
  refine ⟨h.linked, h.nodup, h.counter, ?_, ?_, ?_⟩
  · intro other
    rw [h.pooled]
    by_cases hother : other = packet
    · subst hother
      rcases hafter with rfl | rfl | ⟨rfl, -⟩ <;> simp [hpooled]
    · simp [Function.update_of_ne hother]
  · intro other
    by_cases hother : other = packet
    · subst hother
      rcases hafter with rfl | rfl | ⟨rfl, hzero⟩
      · simp
      · simp
      · simpa using hzero
    · simpa [Function.update_of_ne hother] using h.zero other
  · intro other
    rw [← h.absent]
    by_cases hother : other = packet
    · subst hother
      rcases hafter with rfl | rfl | ⟨rfl, -⟩ <;> simp [habsent]
    · simp [Function.update_of_ne hother]

theorem Sound.recyclePush (h : pool.Sound l) (hcleared : pool.stage packet = .cleared) :
    (pool.recyclePush packet).Sound (packet :: l) := by
  have hnot : packet ∉ l := by
    rw [h.pooled, hcleared]
    simp
  refine ⟨h.linked.push hnot, List.nodup_cons.mpr ⟨hnot, h.nodup⟩, ?_, ?_, ?_, ?_⟩
  · rw [List.length_cons, ← h.counter]
    rfl
  · intro other
    rw [List.mem_cons, h.pooled]
    by_cases hother : other = packet
    · simp [PacketPool.recyclePush, hother]
    · simp [PacketPool.recyclePush, hother]
  · intro other
    by_cases hother : other = packet
    · intro _
      exact hother ▸ h.zero packet (.inr hcleared)
    · simpa [PacketPool.recyclePush, Function.update_of_ne hother] using h.zero other
  · intro other
    refine Iff.trans ?_ (h.absent other)
    by_cases hother : other = packet
    · simp [PacketPool.recyclePush, hother, hcleared]
    · simp [PacketPool.recyclePush, Function.update_of_ne hother]

theorem Sound.recycleCheck (h : pool.Sound l) (hheld : pool.stage packet = .held) :
    (pool.recycleCheck packet).Sound l := by
  rw [PacketPool.recycleCheck]
  split
  · have hdeleted := h.setStage (pool.packetAt packet) (.inl hheld) (.inr (.inl rfl))
    rwa [Function.update_eq_self] at hdeleted
  · exact h.setStage _ (.inl hheld) (.inr (.inr ⟨rfl, NetPacket.byte_clear _⟩))

theorem Sound.use (h : pool.Sound l) (hheld : pool.stage packet = .held) (contents : NetPacket) :
    (pool.apply (.use packet contents)).Sound l := by
  have huse := h.setStage contents (.inl hheld) (.inl rfl)
  rwa [← hheld, Function.update_eq_self] at huse

theorem poolGetPacket_of_none (hhead : pool.head = none) (size : ℕ) :
    pool.poolGetPacket size = (pool.allocated, { pool with
      allocated := pool.allocated + 1
      packetAt := Function.update pool.packetAt pool.allocated (NetPacket.empty.resize size)
      next := Function.update pool.next pool.allocated none
      stage := Function.update pool.stage pool.allocated .held }) := by
  rw [PacketPool.poolGetPacket, hhead]

theorem poolGetPacket_of_some (hhead : pool.head = some packet) (size : ℕ) :
    pool.poolGetPacket size = (packet, { pool with
      head := pool.next packet
      size := pool.size - 1
      packetAt := Function.update pool.packetAt packet ((pool.packetAt packet).resize size)
      stage := Function.update pool.stage packet .held }) := by
  rw [PacketPool.poolGetPacket, hhead]

theorem Sound.poolGetPacket_nil (h : pool.Sound []) (size : ℕ) :
    (pool.poolGetPacket size).2.Sound [] := by
  have hnew : ∀ other, pool.stage other ≠ .absent → other ≠ pool.allocated := by
    rintro other hother rfl
    exact hother ((h.absent _).mpr le_rfl)
  rw [poolGetPacket_of_none h.linked]
  refine ⟨h.linked, List.nodup_nil, h.counter, ?_, ?_, ?_⟩
  · intro other
    rw [h.pooled]
    by_cases hother : other = pool.allocated
    · simp [hother, (h.absent _).mpr le_rfl]
    · simp [Function.update_of_ne hother]
  · intro other
    by_cases hother : other = pool.allocated
    · simp [hother]
    · simpa [Function.update_of_ne hother] using h.zero other
  · intro other
    by_cases hother : other = pool.allocated
    · simp [hother]
    · dsimp only
      rw [Function.update_of_ne hother, h.absent]
      omega

theorem Sound.poolGetPacket_cons {first : ℕ} (h : pool.Sound (first :: l)) (size : ℕ) :
    (pool.poolGetPacket size).2.Sound l := by
  have hpooled : pool.stage first = .pooled := (h.pooled first).mp List.mem_cons_self
  obtain ⟨hnot, hnodup⟩ := List.nodup_cons.mp h.nodup
  rw [poolGetPacket_of_some h.linked.1]
  refine ⟨h.linked.2, hnodup, ?_, ?_, ?_, ?_⟩
  · have hcounter := h.counter
    rw [List.length_cons] at hcounter
    exact Nat.sub_eq_of_eq_add hcounter
  · intro other
    by_cases hother : other = first
    · simp [hother, hnot]
    · dsimp only
      rw [Function.update_of_ne hother, ← h.pooled, List.mem_cons, or_iff_right hother]
  · intro other
    by_cases hother : other = first
    · simp [hother]
    · simpa [Function.update_of_ne hother] using h.zero other
  · intro other
    refine Iff.trans ?_ (h.absent other)
    by_cases hother : other = first
    · simp [hother, hpooled]
    · simp [Function.update_of_ne hother]

theorem Sound.poolGetPacket (h : pool.Sound l) (size : ℕ) :
    (pool.poolGetPacket size).2.Sound l.tail := by
  cases l with
  | nil => exact h.poolGetPacket_nil size
  | cons first l => exact h.poolGetPacket_cons size

/-- What a packet is like when it is handed out: a new or a pooled one, resized. -/
theorem Sound.packetAt_poolGetPacket (h : pool.Sound l) (size : ℕ) :
    (pool.poolGetPacket size).2.packetAt (pool.poolGetPacket size).1 =
      ((l.head?.map pool.packetAt).getD .empty).resize size := by
  cases l with
  | nil =>
    rw [poolGetPacket_of_none h.linked]
    exact Function.update_self ..
  | cons first l =>
    rw [poolGetPacket_of_some h.linked.1]
    exact Function.update_self ..

theorem Sound.handed_zero (h : pool.Sound l) (size i : ℕ) :
    ((pool.poolGetPacket size).2.packetAt (pool.poolGetPacket size).1).byte i = 0 := by
  rw [h.packetAt_poolGetPacket]
  cases l with
  | nil => exact NetPacket.byte_resize_zero (p := .empty) (NetPacket.byte_alloc _ _ i) size
  | cons first l =>
    have hpooled := (h.pooled first).mp List.mem_cons_self
    exact NetPacket.byte_resize_zero (h.zero first (.inl hpooled) i) size

theorem Sound.apply (h : pool.Sound l) {step : PoolStep} (hallowed : pool.Allowed step) :
    ∃ l', (pool.apply step).Sound l' := by
  cases step with
  | get size => exact ⟨l.tail, h.poolGetPacket size⟩
  | use packet contents => exact ⟨l, h.use hallowed.1 contents⟩
  | check packet => exact ⟨l, h.recycleCheck hallowed⟩
  | push packet => exact ⟨packet :: l, h.recyclePush hallowed⟩

end Sound

/-- Every buffer is longer than a packet that is kept may be, and nothing has ever been kept. -/
structure Outgrown (pool : PacketPool) : Prop where
  longer : ∀ packet, pool.stage packet ≠ .absent →
    maxPacketSize < (pool.packetAt packet).bufferSize
  idle : ∀ packet, pool.stage packet ≠ .cleared ∧ pool.stage packet ≠ .pooled

theorem bufferSize_empty : NetPacket.empty.bufferSize = 2048 := by
  rw [NetPacket.bufferSize, NetPacket.empty, NetPacket.alloc, length_ensure]
  rfl

section Outgrown

variable {pool : PacketPool} {l : List ℕ}

theorem Outgrown.list_eq (h : pool.Outgrown) (hl : pool.Sound l) : l = [] := by
  cases l with
  | nil => rfl
  | cons first l => exact absurd ((hl.pooled first).mp List.mem_cons_self) (h.idle first).2

theorem Outgrown.recycleCheck (h : pool.Outgrown) {packet : ℕ}
    (hheld : pool.stage packet = .held) :
    pool.recycleCheck packet =
      { pool with stage := Function.update pool.stage packet .deleted } := by
  rw [PacketPool.recycleCheck]
  exact if_pos (.inl (h.longer packet (by simp [hheld])))

theorem Outgrown.apply (h : pool.Outgrown) (hl : pool.Sound l) {step : PoolStep}
    (hallowed : pool.Allowed step) : (pool.apply step).Outgrown := by
  obtain rfl := h.list_eq hl
  cases step with
  | push packet => exact absurd hallowed (h.idle packet).1
  | check packet =>
    rw [PacketPool.apply, h.recycleCheck hallowed]
    constructor
    · intro other
      by_cases hother : other = packet
      · intro _
        exact hother ▸ h.longer packet (by rw [show pool.stage packet = _ from hallowed]; simp)
      · simpa [Function.update_of_ne hother] using h.longer other
    · intro other
      by_cases hother : other = packet
      · simp [hother]
      · simpa [Function.update_of_ne hother] using h.idle other
  | use packet contents =>
    obtain ⟨hheld, hgrown⟩ := hallowed
    refine ⟨fun other hstage => ?_, h.idle⟩
    by_cases hother : other = packet
    · have hlonger := h.longer packet (by simp [hheld])
      simp only [PacketPool.apply, hother, Function.update_self]
      omega
    · simpa [PacketPool.apply, Function.update_of_ne hother] using h.longer other hstage
  | get size =>
    rw [PacketPool.apply, poolGetPacket_of_none hl.linked]
    constructor
    · intro other
      by_cases hother : other = pool.allocated
      · intro _
        have hresize := NetPacket.bufferSize_le_resize .empty size
        rw [bufferSize_empty] at hresize
        simp only [hother, Function.update_self, maxPacketSize]
        omega
      · simpa [Function.update_of_ne hother] using h.longer other
    · intro other
      by_cases hother : other = pool.allocated
      · simp [hother]
      · simpa [Function.update_of_ne hother] using h.idle other

end Outgrown

theorem apply_packetPoolSize (pool : PacketPool) (step : PoolStep) :
    (pool.apply step).packetPoolSize = pool.packetPoolSize := by
  cases step with
  | get size =>
    rw [apply, poolGetPacket]
    cases pool.head <;> rfl
  | use packet contents => rfl
  | check packet =>
    rw [apply, recycleCheck]
    split_ifs <;> rfl
  | push packet => rfl

/-- The counter is the length of the list and within its bound. -/
def Accounted (pool : PacketPool) : Prop :=
  (∃ l, Linked pool.next pool.head l ∧ pool.size = l.length) ∧ pool.size ≤ pool.packetPoolSize

/-- A packet handed out is zero and large enough; a packet given back is kept while there is
room. -/
def Reuses (pool : PacketPool) : PoolStep → Prop
  | .get size =>
    let got := pool.poolGetPacket size
    (∀ i, (got.2.packetAt got.1).byte i = 0) ∧ size ≤ (got.2.packetAt got.1).bufferSize
  | .check packet =>
    pool.size < pool.packetPoolSize → (pool.recycleCheck packet).stage packet ≠ .deleted
  | _ => True

/-- Every step of the run is one that somebody can make. -/
def Possible (pool : PacketPool) (steps : List PoolStep) : Prop :=
  ∀ before step, before ++ [step] <+: steps → (pool.run before).Allowed step

theorem run_concat (pool : PacketPool) (before : List PoolStep) (step : PoolStep) :
    pool.run (before ++ [step]) = (pool.run before).apply step := List.foldl_concat ..

theorem run_outgrown (packetPoolSize : ℕ) {steps : List PoolStep}
    (h : (new packetPoolSize).Possible steps) :
    ((new packetPoolSize).run steps).Sound [] ∧ ((new packetPoolSize).run steps).Outgrown ∧
      ((new packetPoolSize).run steps).packetPoolSize = packetPoolSize := by
  induction steps using List.reverseRecOn with
  | nil => exact ⟨new_sound packetPoolSize, ⟨by simp [run, new], by simp [run, new]⟩, rfl⟩
  | append_singleton before step ih =>
    obtain ⟨hbefore, hallowed⟩ := (forall_prefix_concat before step).mp h
    obtain ⟨hsound, houtgrown, hsize⟩ := ih hbefore
    have hafter := houtgrown.apply hsound hallowed
    obtain ⟨l, hl⟩ := hsound.apply hallowed
    obtain rfl := hafter.list_eq hl
    rw [run_concat]
    exact ⟨hl, hafter, (apply_packetPoolSize _ _).trans hsize⟩

theorem Sound.accounted {pool : PacketPool} (h : pool.Sound []) : pool.Accounted :=
  ⟨⟨[], h.linked, h.counter⟩, h.counter.trans_le (Nat.zero_le _)⟩

theorem Sound.get_reuses {pool : PacketPool} {l : List ℕ} (h : pool.Sound l) (size : ℕ) :
    pool.Reuses (.get size) := by
  refine ⟨h.handed_zero size, ?_⟩
  rw [h.packetAt_poolGetPacket]
  exact le_length_ensure _ _

/-- A packet that is given back is deleted, so it is kept where it should be only when it need not
be kept. -/
theorem Outgrown.check_reuses_iff {pool : PacketPool} (h : pool.Outgrown) (hl : pool.Sound [])
    {packet : ℕ} (hheld : pool.stage packet = .held) :
    pool.Reuses (.check packet) ↔ pool.packetPoolSize = 0 := by
  have hdeleted : (pool.recycleCheck packet).stage packet = .deleted := by
    rw [h.recycleCheck hheld]
    exact Function.update_self ..
  have hsize : pool.size = 0 := hl.counter
  rw [Reuses, hdeleted, hsize]
  simp

/-- In every run the pool does what it is for exactly when it may hold nothing or nothing is ever
given back. -/
theorem reuses_iff (packetPoolSize : ℕ) (steps : List PoolStep)
    (h : (new packetPoolSize).Possible steps) :
    ((∀ before, before <+: steps → ((new packetPoolSize).run before).Accounted) ∧
      ∀ before step, before ++ [step] <+: steps →
        ((new packetPoolSize).run before).Reuses step) ↔
    packetPoolSize = 0 ∨ ∀ packet, .check packet ∉ steps := by
  have hreached : ∀ before, before <+: steps → (new packetPoolSize).Possible before :=
    fun before hb b s hs => h b s (hs.trans hb)
  constructor
  · rintro ⟨-, hreuses⟩
    by_contra! hcheck
    obtain ⟨hne, packet, hmem⟩ := hcheck
    obtain ⟨before, after, rfl⟩ := List.append_of_mem hmem
    have hb : before ++ [.check packet] <+: before ++ .check packet :: after := ⟨after, by simp⟩
    obtain ⟨hsound, houtgrown, hsize⟩ :=
      run_outgrown packetPoolSize (hreached before (List.prefix_append _ _))
    have hzero := (houtgrown.check_reuses_iff hsound (h before _ hb)).mp (hreuses before _ hb)
    exact hne (hsize.symm.trans hzero)
  · intro hnone
    refine ⟨fun before hb => (run_outgrown packetPoolSize (hreached before hb)).1.accounted, ?_⟩
    intro before step hb
    obtain ⟨hsound, houtgrown, hsize⟩ :=
      run_outgrown packetPoolSize (hreached before ((List.prefix_append _ _).trans hb))
    cases step with
    | get size => exact hsound.get_reuses size
    | use packet contents => trivial
    | push packet => trivial
    | check packet =>
      refine (houtgrown.check_reuses_iff hsound (h before _ hb)).mpr (hsize.trans ?_)
      refine hnone.resolve_right (fun hno => hno packet ?_)
      exact hb.subset (List.mem_append_right _ List.mem_cons_self)

/-- A packet is handed out and given back. -/
def returned : List PoolStep := [.get 100, .check 0]

theorem returned_possible (packetPoolSize : ℕ) : (new packetPoolSize).Possible returned := by
  refine (forall_prefix_concat [PoolStep.get 100] (.check 0)).mpr
    ⟨(forall_prefix_concat [] (PoolStep.get 100)).mpr ⟨by simp, ?_⟩, rfl⟩
  change 100 ≤ maxPacketSize
  decide

theorem reuses_returned :
    ((∀ before, before <+: returned → ((new 0).run before).Accounted) ∧
      ∀ before step, before ++ [step] <+: returned → ((new 0).run before).Reuses step) ↔
    0 = 0 ∨ ∀ packet, .check packet ∉ returned :=
  reuses_iff 0 returned (returned_possible 0)

/-- A pool of a thousand packets keeps none. -/
theorem returned_deleted :
    ¬ ∀ (packetPoolSize : ℕ) (steps : List PoolStep), (new packetPoolSize).Possible steps →
      (∀ before, before <+: steps → ((new packetPoolSize).run before).Accounted) ∧
        ∀ before step, before ++ [step] <+: steps →
          ((new packetPoolSize).run before).Reuses step := by
  intro h
  have hpossible := (forall_prefix_concat [PoolStep.get 100] (.check 0)).mp (returned_possible 1000)
  obtain ⟨hsound, houtgrown, hsize⟩ := run_outgrown 1000 hpossible.1
  have hreuses := (h 1000 returned (returned_possible 1000)).2 [.get 100] (.check 0)
    List.prefix_rfl
  have hzero := (houtgrown.check_reuses_iff hsound hpossible.2).mp hreuses
  rw [hsize] at hzero
  cases hzero

section Refinement

variable {pool : PacketPool} {l : List ℕ} {m : NetManager}

theorem map_packetAt_update (h : pool.Sound l) (packet : ℕ) (hpooled : pool.stage packet ≠ .pooled)
    (contents : NetPacket) :
    l.map (Function.update pool.packetAt packet contents) = l.map pool.packetAt := by
  refine List.map_congr_left (fun other hmem => ?_)
  have hne : other ≠ packet := by
    rintro rfl
    exact hpooled ((h.pooled _).mp hmem)
  exact Function.update_of_ne hne _ _

/-- Handing out a packet takes the first packet of the list that a manager has. -/
theorem poolGetPacket_refines (h : pool.Sound l) (hm : m.packetPool = l.map pool.packetAt)
    (size : ℕ) :
    (m.poolGetPacket size).1 =
        (pool.poolGetPacket size).2.packetAt (pool.poolGetPacket size).1 ∧
      (m.poolGetPacket size).2.packetPool =
        l.tail.map (pool.poolGetPacket size).2.packetAt := by
  rw [h.packetAt_poolGetPacket, NetManager.poolGetPacket, hm]
  cases l with
  | nil => exact ⟨rfl, hm⟩
  | cons first l =>
    refine ⟨rfl, ?_⟩
    have hnot := (List.nodup_cons.mp h.nodup).1
    rw [poolGetPacket_of_some h.linked.1, List.tail_cons]
    refine (List.map_congr_left (fun other hmem => ?_)).symm
    have hne : other ≠ first := by
      rintro rfl
      exact hnot hmem
    exact Function.update_of_ne hne _ _

theorem poolRecycle_refines (h : pool.Sound l) (hm : m.packetPool = l.map pool.packetAt)
    (hsize : m.packetPoolSize = pool.packetPoolSize) {packet : ℕ}
    (hheld : pool.stage packet = .held) :
    ∃ l', (pool.poolRecycle packet).Sound l' ∧
      (m.poolRecycle (pool.packetAt packet)).packetPool =
        l'.map (pool.poolRecycle packet).packetAt := by
  have hlength : m.packetPool.length = pool.size := by rw [hm, List.length_map, h.counter]
  have hchecked := h.recycleCheck hheld
  rw [poolRecycle, NetManager.poolRecycle, hlength, hsize]
  rw [recycleCheck] at hchecked ⊢
  by_cases hdelete :
      maxPacketSize < (pool.packetAt packet).bufferSize ∨ pool.packetPoolSize ≤ pool.size
  · rw [if_pos hdelete] at hchecked ⊢
    rw [if_pos hdelete, if_neg (by simp)]
    exact ⟨l, hchecked, hm⟩
  · rw [if_neg hdelete] at hchecked ⊢
    rw [if_neg hdelete, if_pos (by simp)]
    refine ⟨packet :: l, hchecked.recyclePush (by simp), ?_⟩
    have hrest := map_packetAt_update h packet (by simp [hheld])
      (pool.packetAt packet).clear
    change (pool.packetAt packet).clear :: m.packetPool =
      Function.update pool.packetAt packet (pool.packetAt packet).clear packet ::
        l.map (Function.update pool.packetAt packet (pool.packetAt packet).clear)
    rw [Function.update_self, hrest, hm]

end Refinement

end PacketPool

end LiteNet.Manager
