import Carbon.Heap.Layout
import Carbon.Library.Transition
import Mathlib.Data.List.TakeWhile

namespace Carbon.Heap

open FreeList Alignment

-- A block a task holds, and how much of it the task asked for.
structure Allocation where
  block : Block
  wanted : Nat
deriving DecidableEq

def Allocation.pv (a : Allocation) : Nat := a.block.start + xHeapStructSize

def Allocation.bytes (a : Allocation) : Set Nat := {y | a.pv ≤ y ∧ y < a.pv + a.wanted}

-- The heap with what the tasks hold. A block on its way back, between the two halves of
-- vPortFree, is no longer theirs and not yet free.
structure Service where
  heap : State
  live : List Allocation
  leaving : List Block

def Service.held (s : Service) : List Block := s.live.map Allocation.block ++ s.leaving

-- What the tasks do, in any order. The scheduler is suspended in a request and in the
-- second half of vPortFree, but not in the first.
inductive Call
  | malloc (xWantedSize : Nat)
  | freeBegin (a : Allocation)
  | freeEnd (pxLink : Block)
  | store (address value : Nat)

-- The block of a request that was served, as its header describes it.
def blockAt (heap : State) (pv : Nat) : Block :=
  let pxLink := uint32Sub pv xHeapStructSize
  ⟨pxLink, heap.word.xBlockSize pxLink &&& uint32Not heap.xBlockAllocatedBit⟩

def Service.step (s : Service) : Call → Option Service
  | .malloc xWantedSize =>
    (pvPortMalloc s.heap xWantedSize).map fun (heap, pv) =>
      { s with heap, live := if pv ≠ 0 then ⟨blockAt heap pv, xWantedSize⟩ :: s.live else s.live }
  | .freeBegin a =>
    (unmarkAllocated s.heap (uint32Sub a.pv xHeapStructSize)).map fun heap =>
      { heap, live := s.live.erase a,
        leaving := ⟨a.block.start, heap.word.xBlockSize a.block.start⟩ :: s.leaving }
  | .freeEnd pxLink =>
    (returnBlock s.heap pxLink.start).map fun heap =>
      { s with heap, leaving := s.leaving.erase pxLink }
  | .store address value =>
    some { s with heap := { s.heap with word := s.heap.word.set address value } }

-- Tasks give back what they hold, once, and write into what they asked for.
def Service.allowed (s : Service) : Call → Prop
  | .malloc xWantedSize => xWantedSize < 2 ^ 32
  | .freeBegin a => a ∈ s.live
  | .freeEnd pxLink => pxLink ∈ s.leaving
  | .store address _ => ∃ a ∈ s.live, address ∈ a.bytes

instance (a : Allocation) (y : Nat) : Decidable (y ∈ a.bytes) := inferInstanceAs (Decidable (_ ∧ _))

instance (s : Service) (call : Call) : Decidable (s.allowed call) := by
  cases call <;> unfold Service.allowed <;> infer_instance

-- The system starts with the regions defined on a heap nobody has used.
def system (xStart : Nat) (regions : List HeapRegion_t) : Transition.System Service Call where
  initial s := ∃ fresh, fresh.xStart = xStart ∧ fresh.xNumberOfSuccessfulAllocations = 0 ∧
    fresh.xNumberOfSuccessfulFrees = 0 ∧ vPortDefineHeapRegions fresh regions = some s.heap ∧
    s.live = [] ∧ s.leaving = []
  step := Service.step

-- The memory the regions lie in, and the list head outside of it.
structure Memories (xStart : Nat) (regions : List HeapRegion_t) : Prop where
  usable : ∀ r ∈ regions, 0 < r.xSizeInBytes → Usable xStart r
  head : xStart + 8 ≤ 2 ^ 32

-- The heap between two calls.
structure Sound (ground : List Block) (s : Service) (free : List Block) : Prop where
  layout : Layout ground s.heap free s.held
  live : ∀ a ∈ s.live, Allocated s.heap.word a.block ∧ a.wanted + 8 ≤ a.block.size
  leaving : ∀ b ∈ s.leaving, s.heap.word.xBlockSize b.start = b.size
  minimum : s.heap.xMinimumEverFreeBytesRemaining ≤ s.heap.xFreeBytesRemaining
  calls : s.heap.xNumberOfSuccessfulAllocations = uint32 (s.heap.xNumberOfSuccessfulFrees + s.held.length)

variable {ground free : List Block} {s t : Service} {a : Allocation} {b : Block} {x : Nat}

theorem mem_held_live (h : a ∈ s.live) : a.block ∈ s.held :=
  List.mem_append_left _ (List.mem_map_of_mem h)

theorem mem_held_leaving (h : b ∈ s.leaving) : b ∈ s.held := List.mem_append_right _ h

theorem Sound.calls_eq (h : Sound ground s free) :
    s.heap.xNumberOfSuccessfulAllocations =
      uint32 (s.heap.xNumberOfSuccessfulFrees + s.live.length + s.leaving.length) := by
  have hcalls := h.calls
  unfold Service.held at hcalls
  rwa [List.length_append, List.length_map, ← Nat.add_assoc] at hcalls

-- Blocks whose words did not change keep their headers.
theorem Allocated.same {word word' : Memory} (h : Allocated word b) (hsame : SameCells b word word')
    (hsize : 16 ≤ b.size) : Allocated word' b :=
  ⟨(hsame.size hsize).trans h.1, (hsame.next hsize).trans h.2⟩

theorem Sound.live_same (h : Sound ground s free) (ha : a ∈ s.live) {word : Memory}
    (hsame : SameCells a.block s.heap.word word) :
    Allocated word a.block ∧ a.wanted + 8 ≤ a.block.size :=
  ⟨(h.live a ha).1.same hsame (h.layout.placed _ (mem_held_live ha)).2, (h.live a ha).2⟩

theorem Sound.leaving_same (h : Sound ground s free) (hb : b ∈ s.leaving) {word : Memory}
    (hsame : SameCells b s.heap.word word) : word.xBlockSize b.start = b.size :=
  (hsame.size (h.layout.placed b (mem_held_leaving hb)).2).trans (h.leaving b hb)

theorem uint32_succ (n : Nat) : uint32 (uint32 n + 1) = uint32 (n + 1) := by
  unfold uint32
  omega

theorem uint32_succ_add (n k : Nat) : uint32 (uint32 (n + 1) + k) = uint32 (n + (k + 1)) := by
  unfold uint32
  omega

-- The header of a block that was handed out gives the block back.
theorem blockAt_allocated {heap : State} (hplaced : Placed heap.xStart heap.pxEnd b)
    (hlarge : 16 ≤ b.size) (hbound : heap.pxEnd < 2 ^ 32)
    (hbit : heap.xBlockAllocatedBit = 2 ^ 31) (hsmall : b.size < 2 ^ 31)
    (hallocated : Allocated heap.word b) : blockAt heap (b.start + xHeapStructSize) = b := by
  have hstop := hplaced.stop
  have hstart : uint32Sub (b.start + xHeapStructSize) xHeapStructSize = b.start := by
    unfold Block.stop xHeapStructSize at *
    rw [uint32Sub_of_le (by omega) (by omega), Nat.add_sub_cancel]
  unfold blockAt
  simp only
  rw [hstart, hallocated.1, hbit, (topBit_allocated hsmall).2]

-- A sound state after another, with the low-water mark brought up to date.
structure Follows (ground : List Block) (s t : Service) (free : List Block) : Prop where
  sound : Sound ground t free
  minimum : t.heap.xMinimumEverFreeBytesRemaining =
    min s.heap.xMinimumEverFreeBytesRemaining t.heap.xFreeBytesRemaining

-- A task keeps a block, with its contents.
def Keeps (a : Allocation) (s t : Service) : Prop :=
  a ∈ t.live ∧ SameCells a.block s.heap.word t.heap.word

theorem Sound.malloc (h : Sound ground s free) (hground : Ground ground) (hx : x < 2 ^ 32) :
    ∃ t free', s.step (.malloc x) = some t ∧ Follows ground s t free' ∧
      ∀ a ∈ s.live, Keeps a s t := by
  by_cases hfails : ¬Servable x ∨ ∀ b ∈ free, b.size < blockSizeFor x
  · refine ⟨s, free, ?_, ⟨h, (Nat.min_eq_left h.minimum).symm⟩, fun a ha => ⟨ha, fun _ _ => rfl⟩⟩
    unfold Service.step
    simp only
    rw [pvPortMalloc_fails h.layout.listed h.layout.bit hx hfails, Option.map_some]
    simp
  · rw [not_or, not_not] at hfails
    obtain ⟨hserve, hfit⟩ := hfails
    obtain ⟨front, b, back, hfree, hsmall, hb⟩ :=
      (allocate_cases (blockSizeFor x) free).resolve_left hfit
    obtain ⟨word, block, free', hrun, hstart, hsize, -, hallocated, hlayout, hsame⟩ :=
      h.layout.malloc hserve hfree hsmall hb
    have hbound := hlayout.listed.endBound
    have hlarge := (hlayout.placed block (by simp)).2
    have hsmallblock := hlayout.held_small hground (List.mem_cons_self ..)
    have hblock := blockAt_allocated (hlayout.placed block (by simp)).1 hlarge (by omega) hlayout.bit
      hsmallblock hallocated
    have hwanted := le_blockSizeFor hserve.1 hserve.2
    refine ⟨⟨handOut s.heap word block.size, ⟨block, x⟩ :: s.live, s.leaving⟩, free', ?_,
      ⟨?_, Nat.min_comm _ _⟩, fun a ha => ⟨List.mem_cons_of_mem _ ha, hsame _ (mem_held_live ha)⟩⟩
    · unfold Service.step
      simp only
      rw [hrun, Option.map_some]
      simp only [hblock]
      rw [if_pos (by unfold xHeapStructSize; omega)]
    · exact {
        layout := hlayout
        live := List.forall_mem_cons.mpr ⟨⟨hallocated, by simp only; omega⟩, fun a ha =>
          h.live_same ha (hsame _ (mem_held_live ha))⟩
        leaving := fun b hb => h.leaving_same hb (hsame b (mem_held_leaving hb))
        minimum := Nat.min_le_left _ _
        calls := by
          have hcalls := h.calls
          unfold handOut
          simp only
          rw [hcalls, uint32_succ]
          rfl }

-- The held blocks with one of them in front.
theorem held_perm_live (ha : a ∈ s.live) :
    s.held.Perm (a.block :: ((s.live.erase a).map Allocation.block ++ s.leaving)) :=
  ((List.perm_cons_erase ha).map Allocation.block).append_right s.leaving

theorem held_perm_leaving (hb : b ∈ s.leaving) :
    s.held.Perm (b :: (s.live.map Allocation.block ++ s.leaving.erase b)) :=
  ((List.perm_cons_erase hb).append_left _).trans List.perm_middle

-- The other blocks lie apart from the one that changes.
theorem Sound.others_same (h : Sound ground s free) (ha : a ∈ s.live) {word : Memory}
    (hsame : ∀ d ∈ s.held, d.Apart a.block → SameCells d s.heap.word word) :
    ∀ d ∈ (s.live.erase a).map Allocation.block ++ s.leaving, SameCells d s.heap.word word := by
  intro d hd
  have hperm := held_perm_live ha
  obtain ⟨hapart, -⟩ := List.pairwise_cons.mp (h.layout.perm hperm).apart
  exact hsame d (hperm.mem_iff.mpr (List.mem_cons_of_mem _ hd)) (hapart d hd).symm

theorem pv_sub (hplaced : Placed s.heap.xStart s.heap.pxEnd a.block) (hlarge : 16 ≤ a.block.size)
    (hbound : s.heap.pxEnd < 2 ^ 32) : uint32Sub a.pv xHeapStructSize = a.block.start := by
  have hstop := hplaced.stop
  unfold Allocation.pv Block.stop xHeapStructSize at *
  rw [uint32Sub_of_le (by omega) (by omega), Nat.add_sub_cancel]

theorem Sound.freeBegin (h : Sound ground s free) (hground : Ground ground) (ha : a ∈ s.live) :
    ∃ t, s.step (.freeBegin a) = some t ∧ Follows ground s t free ∧
      ∀ c ∈ s.live, c ≠ a → Keeps c s t := by
  have hheld := mem_held_live ha
  have hbound := h.layout.listed.endBound
  obtain ⟨hplaced, hlarge⟩ := h.layout.placed _ hheld
  obtain ⟨hrun, hlayout, hsame⟩ :=
    h.layout.unmark hheld (h.layout.held_small hground hheld) (h.live a ha).1
  have hkeep := h.others_same ha hsame
  refine ⟨⟨{ s.heap with word := s.heap.word.setSize a.block.start a.block.size },
      s.live.erase a, a.block :: s.leaving⟩,
    ?_, ⟨?_, (Nat.min_eq_left h.minimum).symm⟩, fun c hc hca => ?_⟩
  · unfold Service.step
    simp only
    rw [pv_sub hplaced hlarge (by omega), hrun, Option.map_some]
    simp
  · have hperm' : s.held.Perm ((s.live.erase a).map Allocation.block ++ a.block :: s.leaving) :=
      (held_perm_live ha).trans List.perm_middle.symm
    exact {
      layout := hlayout.perm hperm'
      live := fun c hc => h.live_same (List.mem_of_mem_erase hc)
        (hkeep _ (List.mem_append_left _ (List.mem_map_of_mem hc)))
      leaving := List.forall_mem_cons.mpr ⟨Memory.size_setSize, fun c hc =>
        h.leaving_same hc (hkeep c (List.mem_append_right _ hc))⟩
      minimum := h.minimum
      calls := by
        have hlength := hperm'.length_eq
        have hcalls := h.calls
        rw [hlength] at hcalls
        exact hcalls }
  · have hc' := (List.mem_erase_of_ne hca).mpr hc
    exact ⟨hc', hkeep _ (List.mem_append_left _ (List.mem_map_of_mem hc'))⟩

theorem Sound.freeEnd (h : Sound ground s free) (hground : Ground ground) (hb : b ∈ s.leaving) :
    ∃ t, s.step (.freeEnd b) = some t ∧ Follows ground s t (release b free) ∧
      ∀ c ∈ s.live, Keeps c s t := by
  have hperm := held_perm_leaving hb
  obtain ⟨word, hrun, hlayout, hsame⟩ := (h.layout.perm hperm).giveBack hground (h.leaving b hb)
  have hstep : s.step (.freeEnd b) = some ⟨{ s.heap with
      word
      xFreeBytesRemaining := s.heap.xFreeBytesRemaining + b.size
      xNumberOfSuccessfulFrees :=
        uint32 (s.heap.xNumberOfSuccessfulFrees + 1) }, s.live, s.leaving.erase b⟩ := by
    unfold Service.step
    simp only
    rw [hrun, Option.map_some]
  have hgrows := Nat.le_trans h.minimum (Nat.le_add_right s.heap.xFreeBytesRemaining b.size)
  have hlive : ∀ c ∈ s.live, SameCells c.block s.heap.word word := fun c hc =>
    hsame _ (List.mem_append_left _ (List.mem_map_of_mem hc))
  refine ⟨_, hstep, ⟨?_, (Nat.min_eq_left hgrows).symm⟩, fun c hc => ⟨hc, hlive c hc⟩⟩
  exact {
    layout := hlayout
    live := fun c hc => h.live_same hc (hlive c hc)
    leaving := fun c hc =>
      h.leaving_same (List.mem_of_mem_erase hc) (hsame c (List.mem_append_right _ hc))
    minimum := hgrows
    calls := by
      have hlength := hperm.length_eq
      have hcalls := h.calls
      rw [hlength, List.length_cons] at hcalls
      exact hcalls.trans (uint32_succ_add _ _).symm }

-- Taken one after the other, the two halves are vPortFree.
theorem Sound.vPortFree (h : Sound ground s free) (ha : a ∈ s.live) {u : Service}
    (hbegin : s.step (.freeBegin a) = some t) (hend : t.step (.freeEnd a.block) = some u) :
    vPortFree s.heap a.pv = some u.heap := by
  obtain ⟨hplaced, hlarge⟩ := h.layout.placed _ (mem_held_live ha)
  have hbound := h.layout.listed.endBound
  have hsub := pv_sub hplaced hlarge (by omega)
  unfold Service.step at hbegin hend
  simp only [hsub] at hbegin hend
  obtain ⟨heap, hunmark, rfl⟩ := Option.map_eq_some_iff.mp hbegin
  obtain ⟨heap', hreturn, rfl⟩ := Option.map_eq_some_iff.mp hend
  unfold Heap.vPortFree
  simp only [hsub]
  have hpv : a.pv ≠ 0 := Nat.succ_ne_zero _
  rw [if_pos hpv, hunmark, Option.bind_some]
  exact hreturn

theorem Sound.store (h : Sound ground s free) (ha : a ∈ s.live) (hx : x ∈ a.bytes) (value : Nat) :
    Sound ground { s with heap := { s.heap with word := s.heap.word.set x value } } free := by
  have hheld := mem_held_live ha
  have hwanted := (h.live a ha).2
  have hstop : a.block.stop = a.block.start + a.block.size := rfl
  have hlow : a.block.start + 8 ≤ x := hx.1
  have hhigh : x < a.block.start + 8 + a.wanted := hx.2
  obtain ⟨hlayout, hsame⟩ := h.layout.store hheld hlow (by omega) value
  have hkeep := h.others_same ha hsame
  have hown : Allocated (s.heap.word.set x value) a.block := by
    have hnext : (s.heap.word.set x value) a.block.start = s.heap.word a.block.start :=
      if_neg (by omega)
    have hsize : (s.heap.word.set x value) (a.block.start + 4) = s.heap.word (a.block.start + 4) :=
      if_neg (by omega)
    exact ⟨hsize.trans (h.live a ha).1.1, hnext.trans (h.live a ha).1.2⟩
  exact {
    layout := hlayout
    live := fun c hc => by
      by_cases hca : c = a
      · exact ⟨hca ▸ hown, (h.live c hc).2⟩
      · have hc' := (List.mem_erase_of_ne hca).mpr hc
        exact h.live_same hc (hkeep _ (List.mem_append_left _ (List.mem_map_of_mem hc')))
    leaving := fun c hc => h.leaving_same hc (hkeep c (List.mem_append_right _ hc))
    minimum := h.minimum
    calls := h.calls }

section Runs

variable {xStart : Nat} {regions : List HeapRegion_t}

theorem ground_of_listed {heap : State}
    (husable : ∀ r ∈ regions, 0 < r.xSizeInBytes → Usable xStart r)
    (hlisted : Listed heap free) (hsub : (areas regions).Sublist free)
    (htotal : total free = total (areas regions)) :
    Ground (areas regions) where
  separate := hlisted.separate.sublist hsub
  small := by
    intro a ha
    unfold areas at ha
    obtain ⟨r, hr, rfl⟩ := List.mem_map.mp ha
    have hpos : 0 < r.xSizeInBytes := by
      have := List.mem_takeWhile_imp hr
      simpa using this
    exact (husable r ((List.takeWhile_sublist _).subset hr) hpos).extent.2.2.2.2.2.1
  bound := by
    have hle := total_le_end hlisted
    have hend := hlisted.endBound
    omega

theorem Sound.start (hmem : Memories xStart regions) (hs : (system xStart regions).initial s) :
    Ground (areas regions) ∧ ∃ free, Sound (areas regions) s free ∧
      s.heap.xMinimumEverFreeBytesRemaining = s.heap.xFreeBytesRemaining := by
  obtain ⟨fresh, rfl, hallocs, hfrees, hdefine, hlive, hleaving⟩ := hs
  obtain ⟨free, hlisted, hcells, htotal, hsub, hfree, hmin, hbit, hcalls⟩ :=
    vPortDefineHeapRegions_listed hmem.usable hmem.head hdefine
  have hheld : s.held = [] := by
    unfold Service.held
    rw [hlive, hleaving]
    rfl
  refine ⟨ground_of_listed hmem.usable hlisted hsub htotal, free, ?_, by rw [hmin, hfree]⟩
  exact {
    layout := {
      listed := hlisted
      bit := hbit
      remaining := hfree
      covers := by rw [hheld, cells_nil, Set.union_empty, hcells]
      sum := by rw [hheld, total_nil, Nat.add_zero, htotal]
      placed := by simp [hheld]
      apart := by simp [hheld]
      freeApart := by simp [hheld] }
    live := by simp [hlive]
    leaving := by simp [hleaving]
    minimum := by rw [hmin, hfree]
    calls := by rw [hcalls.allocations, hcalls.frees, hallocs, hfrees, hheld]; rfl }

theorem Sound.step (h : Sound ground s free) (hground : Ground ground) {c : Call}
    (hallowed : s.allowed c) :
    ∃ t free', s.step c = some t ∧ Follows ground s t free' := by
  cases c with
  | malloc x =>
      obtain ⟨t, free', hrun, ht, -⟩ := h.malloc hground hallowed
      exact ⟨t, free', hrun, ht⟩
  | freeBegin a =>
      obtain ⟨t, hrun, ht, -⟩ := h.freeBegin hground hallowed
      exact ⟨t, free, hrun, ht⟩
  | freeEnd b =>
      obtain ⟨t, hrun, ht, -⟩ := h.freeEnd hground hallowed
      exact ⟨t, _, hrun, ht⟩
  | store x value =>
      obtain ⟨a, ha, hx⟩ := hallowed
      exact ⟨_, free, rfl, h.store ha hx value, (Nat.min_eq_left h.minimum).symm⟩

theorem reachable_sound (hmem : Memories xStart regions)
    (hs : (system xStart regions).ReachableBy Service.allowed s) :
    Ground (areas regions) ∧ ∃ free, Sound (areas regions) s free := by
  refine hs.invariant
    (P := fun s => Ground (areas regions) ∧ ∃ free, Sound (areas regions) s free) (fun s hinit => ?_)
    fun s c t ⟨hground, free, hsound⟩ hallowed hstep => ?_
  · obtain ⟨hground, free, hsound, -⟩ := Sound.start hmem hinit
    exact ⟨hground, free, hsound⟩
  · obtain ⟨t', free', hrun, ht⟩ := hsound.step hground hallowed
    obtain rfl : t = t' := Option.some.inj (hstep.symm.trans hrun)
    exact ⟨hground, free', ht.sound⟩

end Runs

end Carbon.Heap
