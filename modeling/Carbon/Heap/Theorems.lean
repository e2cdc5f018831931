import Carbon.Heap.Service

namespace Carbon.Heap

open FreeList Alignment

variable {xStart : Nat} {regions : List HeapRegion_t} {s t : Service} {a : Allocation} {x y : Nat}

-- The bytes of the regions that lie in no block a task holds or is giving back.
def Service.freeBytes (s : Service) (regions : List HeapRegion_t) : Set Nat :=
  cells (areas regions) \ cells s.held

theorem Sound.bytes_subset {ground free : List Block} (h : Sound ground s free) (ha : a ∈ s.live) :
    a.bytes ⊆ a.block.cells := by
  have hwanted := (h.live a ha).2
  intro y hy
  have hlow : a.block.start + 8 ≤ y := hy.1
  have hhigh : y < a.block.start + 8 + a.wanted := hy.2
  exact ⟨by omega, by unfold Block.stop; omega⟩

-- What a task gets is its own.
theorem allocations_apart (hmem : Memories xStart regions)
    (hs : (system xStart regions).ReachableBy Service.allowed s) :
    s.live.Pairwise (fun a b => ∀ y ∈ a.bytes, y ∉ b.bytes) ∧
      (∀ a ∈ s.live, 8 ∣ a.pv ∧ (∃ region ∈ areas regions, a.bytes ⊆ region.cells) ∧
        Allocated s.heap.word a.block) ∧
      ∀ call, s.allowed call → (s.step call).isSome := by
  obtain ⟨hground, free, h⟩ := reachable_sound hmem hs
  refine ⟨?_, fun a ha => ⟨?_, ?_, (h.live a ha).1⟩, fun call hallowed => ?_⟩
  · have hpairs := (List.pairwise_append.mp h.layout.apart).1
    refine (List.pairwise_map.mp hpairs).imp_of_mem fun {a b} ha hb hapart y hy hy' => ?_
    exact hapart.notMem (h.bytes_subset ha hy) (h.bytes_subset hb hy')
  · exact Nat.dvd_add (h.layout.placed _ (mem_held_live ha)).1.start (by decide)
  · have hlarge := (h.layout.placed _ (mem_held_live ha)).2
    have hrun : Run (cells (areas regions)) a.block.start a.block.size := fun y hy hlt => by
      rw [← h.layout.covers]
      exact .inr ⟨a.block, mem_held_live ha, hy, hlt⟩
    obtain ⟨region, hregion, hstart, hstop⟩ := run_in_block hground.separate (by omega) hrun
    refine ⟨region, hregion, fun y hy => ?_⟩
    obtain ⟨hlow, hhigh⟩ := h.bytes_subset ha hy
    unfold Block.stop at hhigh
    exact ⟨by omega, by omega⟩
  · obtain ⟨t, _, hstep, _⟩ := h.step hground hallowed
    rw [hstep]
    rfl

-- Two regions, the first of them not aligned.
def sampleRegions : List HeapRegion_t := [⟨0x24000004, 96⟩, ⟨0xD0000000, 128⟩, ⟨0, 0⟩]

def sampleFresh : State where
  word _ := 0
  xStart := 0x20000100
  pxEnd := 0
  xFreeBytesRemaining := 0
  xMinimumEverFreeBytesRemaining := 0
  xNumberOfSuccessfulAllocations := 0
  xNumberOfSuccessfulFrees := 0
  xBlockAllocatedBit := 0

theorem sample_memories : Memories 0x20000100 sampleRegions := by
  refine ⟨?_, by decide⟩
  simp only [sampleRegions, List.forall_mem_cons]
  exact ⟨fun _ => ⟨by decide, by decide, by decide, by decide, by decide⟩,
    fun _ => ⟨by decide, by decide, by decide, by decide, by decide⟩,
    fun h => absurd h (by decide), by simp⟩

theorem sample_defined : (vPortDefineHeapRegions sampleFresh sampleRegions).isSome := by
  decide +kernel

def sampleStart : Service :=
  ⟨(vPortDefineHeapRegions sampleFresh sampleRegions).get sample_defined, [], []⟩

theorem sampleStart_initial : (system 0x20000100 sampleRegions).initial sampleStart :=
  ⟨sampleFresh, rfl, rfl, rfl, (Option.some_get sample_defined).symm, rfl, rfl⟩

-- The first request is split off the first region, the second needs the other region, the
-- third is given back while the first is in use.
def sampleCalls : List Call :=
  [.malloc 20, .malloc 60, .malloc 8, .store 0x24000010 7, .freeBegin ⟨⟨0x24000028, 16⟩, 8⟩,
    .freeEnd ⟨0x24000028, 16⟩]

theorem sample_runs :
    ((system 0x20000100 sampleRegions).runBy Service.allowed sampleStart sampleCalls).isSome := by
  decide +kernel

def sampleBusy : Service :=
  ((system 0x20000100 sampleRegions).runBy Service.allowed sampleStart sampleCalls).get sample_runs

theorem sampleBusy_reachable :
    (system 0x20000100 sampleRegions).ReachableBy Service.allowed sampleBusy :=
  .get (system 0x20000100 sampleRegions) Service.allowed sampleCalls sampleStart_initial sample_runs

theorem allocations_apart_busy :
    sampleBusy.live.Pairwise (fun a b => ∀ y ∈ a.bytes, y ∉ b.bytes) ∧
      (∀ a ∈ sampleBusy.live, 8 ∣ a.pv ∧ (∃ region ∈ areas sampleRegions, a.bytes ⊆ region.cells) ∧
        Allocated sampleBusy.heap.word a.block) ∧
      ∀ call, sampleBusy.allowed call → (sampleBusy.step call).isSome :=
  allocations_apart sample_memories sampleBusy_reachable

-- The steps of all tasks in which nobody gives the block back and nobody stores at the
-- address.
def Elsewhere (a : Allocation) (y : Nat) (s t : Service) : Prop :=
  ∃ call, s.allowed call ∧ call ≠ .freeBegin a ∧ (∀ value, call ≠ .store y value) ∧
    s.step call = some t

theorem Sound.elsewhere {ground free : List Block} (h : Sound ground s free)
    (hground : Ground ground) (ha : a ∈ s.live)
    (hy : y ∈ a.bytes) (hstep : Elsewhere a y s t) :
    (∃ free', Sound ground t free') ∧ a ∈ t.live ∧ t.heap.word y = s.heap.word y := by
  obtain ⟨call, hallowed, hfree, hstore, hrun⟩ := hstep
  have hkeep : ∀ t', s.step call = some t' → Keeps a s t' →
      a ∈ t.live ∧ t.heap.word y = s.heap.word y := by
    intro t' hrun' hkeeps
    obtain rfl : t = t' := Option.some.inj (hrun.symm.trans hrun')
    exact ⟨hkeeps.1, hkeeps.2 y (h.bytes_subset ha hy)⟩
  obtain ⟨t', free', hrun', hsound⟩ := h.step hground hallowed
  obtain rfl : t = t' := Option.some.inj (hrun.symm.trans hrun')
  refine ⟨⟨free', hsound.sound⟩, ?_⟩
  cases call with
  | malloc x =>
      obtain ⟨t', _, hrun', _, hkeeps⟩ := h.malloc hground hallowed
      exact hkeep t' hrun' (hkeeps a ha)
  | freeBegin c =>
      obtain ⟨t', hrun', _, hkeeps⟩ := h.freeBegin hground hallowed
      exact hkeep t' hrun' (hkeeps a ha fun (heq : a = c) => hfree (by rw [heq]))
  | freeEnd b =>
      obtain ⟨t', hrun', _, hkeeps⟩ := h.freeEnd hground hallowed
      exact hkeep t' hrun' (hkeeps a ha)
  | store address value =>
      cases hrun
      have hne : y ≠ address := fun heq => hstore value (by rw [heq])
      exact ⟨ha, if_neg hne⟩

-- What is stored in a block stays there: no other task's calls, and no call of the heap
-- itself, touch it before its owner does.
theorem contents_kept (hmem : Memories xStart regions)
    (hs : (system xStart regions).ReachableBy Service.allowed s) (ha : a ∈ s.live) (hy : y ∈ a.bytes)
    (hrun : Relation.ReflTransGen (Elsewhere a y) s t) :
    a ∈ t.live ∧ t.heap.word y = s.heap.word y := by
  obtain ⟨hground, free, h⟩ := reachable_sound hmem hs
  have hrun' : (∃ free, Sound (areas regions) t free) ∧ a ∈ t.live ∧
      t.heap.word y = s.heap.word y := by
    induction hrun with
    | refl => exact ⟨⟨free, h⟩, ha, rfl⟩
    | tail _ hstep ih =>
        obtain ⟨⟨_, hsound⟩, hlive, hword⟩ := ih
        obtain ⟨hsound', hlive', hword'⟩ := hsound.elsewhere hground hlive hy hstep
        exact ⟨hsound', hlive', hword'.trans hword⟩
  exact hrun'.2

theorem sampleBusy_request : (sampleBusy.step (.malloc 30)).isSome := by decide +kernel

-- One request later.
def sampleLater : Service := (sampleBusy.step (.malloc 30)).get sampleBusy_request

-- The word stored in the first block, through the request of another task.
theorem contents_kept_busy : ∃ t, sampleBusy.step (.malloc 30) = some t ∧
    t.heap.word 0x24000010 = sampleBusy.heap.word 0x24000010 := by
  have hstep : sampleBusy.step (.malloc 30) = some sampleLater := (Option.some_get sampleBusy_request).symm
  refine ⟨sampleLater, hstep, ?_⟩
  exact (contents_kept (a := ⟨⟨0x24000008, 32⟩, 20⟩) sample_memories sampleBusy_reachable
    (by decide +kernel) (by decide) (.single ⟨.malloc 30, by decide, by simp, by simp, hstep⟩)).2

-- A request of n bytes, header included, served from what was free: from the lowest place
-- with n of them in a row, at most a rest too small for a block of its own on top, and
-- what is not handed out is in the list of free blocks.
structure Served (before : Set Nat) (heap : State) (pv n : Nat) : Prop where
  lowest : IsLeast {a | Run before a n} (pv - 8)
  block : ∃ block rest, block.start = pv - 8 ∧ n ≤ block.size ∧ block.size ≤ n + 16 ∧
    block.cells ⊆ before ∧ Allocated heap.word block ∧ Listed heap rest ∧
    cells rest = before \ block.cells

theorem Sound.lowest {ground free : List Block} (h : Sound ground s free) (hx : x < 2 ^ 32) :
    ∃ heap pv, pvPortMalloc s.heap x = some (heap, pv) ∧
      (pv = 0 ↔ ¬Servable x ∨ ∀ a, ¬Run (cells free) a (alignUp (x + 8) 8)) ∧
      (pv = 0 → heap = s.heap) ∧ (pv ≠ 0 → Served (cells free) heap pv (alignUp (x + 8) 8)) := by
  by_cases hserve : Servable x
  · have hsize := blockSizeFor_eq hserve.1 hserve.2
    have hpos : 0 < alignUp (x + 8) 8 := alignUp_pos (by decide) (by omega)
    rw [← hsize] at hpos ⊢
    rcases allocate_cases (blockSizeFor x) free with hsmall | ⟨front, b, back, rfl, hsmall, hb⟩
    · refine ⟨s.heap, 0, pvPortMalloc_fails h.layout.listed h.layout.bit hx (.inr hsmall), ?_,
        fun _ => rfl, fun hne => absurd rfl hne⟩
      exact iff_of_true rfl (.inr (no_run h.layout.listed.separate hpos hsmall))
    · obtain ⟨word, block, rest, hrun, hstart, hsize, hlargest, hallocated, hlayout, -⟩ :=
        h.layout.malloc hserve rfl hsmall hb
      have hleast := first_fit_least h.layout.listed.separate hpos hsmall hb
      rw [← hstart] at hleast
      obtain ⟨hsubset, hrest⟩ := h.layout.taken hlayout
      refine ⟨_, block.start + xHeapStructSize, hrun, iff_of_false (Nat.succ_ne_zero _) ?_,
        fun hzero => absurd hzero (Nat.succ_ne_zero _), fun _ => ⟨hleast, ?_⟩⟩
      · rintro (hnot | hnone)
        · exact hnot hserve
        · exact hnone _ hleast.1
      · exact ⟨block, rest, rfl, hsize, hlargest, hsubset, hallocated, hlayout.listed, hrest⟩
  · exact ⟨s.heap, 0, pvPortMalloc_fails h.layout.listed h.layout.bit hx (.inl hserve),
      iff_of_true rfl (.inl hserve), fun _ => rfl, fun hne => absurd rfl hne⟩

-- A request gets the lowest place where enough bytes in a row are free, and takes no more
-- than the rest of a block that is too small to be one; it is turned down, and changes
-- nothing, only if there is no such place.
theorem malloc_lowest (hmem : Memories xStart regions)
    (hs : (system xStart regions).ReachableBy Service.allowed s) (hx : x < 2 ^ 32) :
    ∃ heap pv, pvPortMalloc s.heap x = some (heap, pv) ∧
      (pv = 0 ↔ ¬Servable x ∨ ∀ a, ¬Run (s.freeBytes regions) a (alignUp (x + 8) 8)) ∧
      (pv = 0 → heap = s.heap) ∧
      (pv ≠ 0 → Served (s.freeBytes regions) heap pv (alignUp (x + 8) 8)) := by
  obtain ⟨-, free, h⟩ := reachable_sound hmem hs
  have hfree : cells free = s.freeBytes regions := h.layout.free_eq
  rw [← hfree]
  exact h.lowest hx

-- The bytes that were given back are handed out again, with the ones behind them.
theorem malloc_lowest_busy : ∃ heap, pvPortMalloc sampleBusy.heap 16 = some (heap, 0x24000030) ∧
    Served (sampleBusy.freeBytes sampleRegions) heap 0x24000030 24 := by
  obtain ⟨heap, pv, hrun, -, -, hserved⟩ :=
    malloc_lowest (x := 16) sample_memories sampleBusy_reachable (by decide)
  have hpv : (pvPortMalloc sampleBusy.heap 16).map Prod.snd = some 0x24000030 := by decide +kernel
  rw [hrun] at hpv
  cases hpv
  exact ⟨heap, hrun, hserved (by decide)⟩

-- Once everything is given back, the regions are whole again, whatever happened before.
theorem whole_again (hmem : Memories xStart regions)
    (hs : (system xStart regions).ReachableBy Service.allowed s) (hlive : s.live = [])
    (hleaving : s.leaving = []) {region : Block} (hregion : region ∈ areas regions)
    (hserve : Servable x) (hfit : alignUp (x + 8) 8 ≤ region.size) :
    ∃ heap pv, pvPortMalloc s.heap x = some (heap, pv) ∧ pv ≠ 0 := by
  obtain ⟨-, free, h⟩ := reachable_sound hmem hs
  have hfree : cells free = cells (areas regions) := by
    have hcovers := h.layout.covers
    unfold Service.held at hcovers
    rwa [hlive, hleaving, List.map_nil, List.append_nil, cells_nil, Set.union_empty] at hcovers
  obtain ⟨heap, pv, hrun, hfails, -⟩ := h.lowest (Nat.lt_trans hserve.2 (by decide))
  refine ⟨heap, pv, hrun, fun hzero => ?_⟩
  rcases hfails.mp hzero with hnot | hnone
  · exact hnot hserve
  · exact hnone region.start (hfree ▸ run_of_mem hregion hfit)

-- The blocks of `sampleBusy` given back as well, the one in front of the free bytes first.
def sampleReturns : List Call :=
  [.freeBegin ⟨⟨0x24000008, 32⟩, 20⟩, .freeEnd ⟨0x24000008, 32⟩,
    .freeBegin ⟨⟨0xD0000000, 72⟩, 60⟩, .freeEnd ⟨0xD0000000, 72⟩]

theorem sample_returns :
    ((system 0x20000100 sampleRegions).runBy Service.allowed sampleStart
      (sampleCalls ++ sampleReturns)).isSome := by
  decide +kernel

-- The whole of the first region in one block.
theorem whole_again_returned : ∃ heap pv,
    pvPortMalloc (((system 0x20000100 sampleRegions).runBy Service.allowed sampleStart
      (sampleCalls ++ sampleReturns)).get sample_returns).heap 72 = some (heap, pv) ∧ pv ≠ 0 :=
  whole_again sample_memories
    (.get (system 0x20000100 sampleRegions) Service.allowed (sampleCalls ++ sampleReturns)
      sampleStart_initial sample_returns)
    (by decide +kernel) (by decide +kernel)
    (show ⟨0x24000008, 80⟩ ∈ areas sampleRegions by decide +kernel) (by decide) (by decide)

-- One state of a run comes before another.
def Leads : Service → Service → Prop :=
  Relation.ReflTransGen fun s t => ∃ call, s.allowed call ∧ s.step call = some t

-- The low-water mark never rises, and is at most what is free.
theorem Leads.minimum {ground free : List Block} (h : Sound ground s free) (hground : Ground ground)
    (hleads : Leads s t) :
    t.heap.xMinimumEverFreeBytesRemaining ≤ s.heap.xMinimumEverFreeBytesRemaining := by
  have hmin : (∃ free, Sound ground t free) ∧
      t.heap.xMinimumEverFreeBytesRemaining ≤ s.heap.xMinimumEverFreeBytesRemaining := by
    induction hleads with
    | refl => exact ⟨⟨free, h⟩, Nat.le_refl _⟩
    | tail _ hstep ih =>
        obtain ⟨⟨_, hsound⟩, hle⟩ := ih
        obtain ⟨call, hallowed, hrun⟩ := hstep
        obtain ⟨t', free', hrun', hfollows⟩ := hsound.step hground hallowed
        obtain rfl := Option.some.inj (hrun.symm.trans hrun')
        refine ⟨⟨free', hfollows.sound⟩, Nat.le_trans ?_ hle⟩
        rw [hfollows.minimum]
        exact Nat.min_le_left _ _
  exact hmin.2

-- It is what was free at some point of the run.
theorem minimum_reached (hmem : Memories xStart regions)
    (hs : (system xStart regions).ReachableBy Service.allowed s) :
    ∃ u, (system xStart regions).ReachableBy Service.allowed u ∧ Leads u s ∧
      u.heap.xFreeBytesRemaining = s.heap.xMinimumEverFreeBytesRemaining := by
  induction hs with
  | @start s hinit =>
      obtain ⟨-, -, -, hmin⟩ := Sound.start hmem hinit
      exact ⟨s, .start hinit, .refl, hmin.symm⟩
  | @next s t call hr hallowed hstep ih =>
      obtain ⟨u, hu, hleads, heq⟩ := ih
      obtain ⟨hground, free, h⟩ := reachable_sound hmem hr
      obtain ⟨t', free', hrun', hfollows⟩ := h.step hground hallowed
      obtain rfl : t = t' := Option.some.inj (hstep.symm.trans hrun')
      rcases min_choice s.heap.xMinimumEverFreeBytesRemaining t.heap.xFreeBytesRemaining with hold | hnew
      · exact ⟨u, hu, hleads.tail ⟨call, hallowed, hstep⟩, by rw [hfollows.minimum, hold, heq]⟩
      · exact ⟨t, .next hr hallowed hstep, .refl, by rw [hfollows.minimum, hnew]⟩

-- The accounts are those of the bytes that are free, in whatever way they came back.
theorem accounts_exact (hmem : Memories xStart regions)
    (hs : (system xStart regions).ReachableBy Service.allowed s) :
    xPortGetFreeHeapSize s.heap = (s.freeBytes regions).ncard ∧
      IsLeast {n | ∃ u, (system xStart regions).ReachableBy Service.allowed u ∧ Leads u s ∧
          xPortGetFreeHeapSize u.heap = n}
        (xPortGetMinimumEverFreeHeapSize s.heap) ∧
      s.heap.xNumberOfSuccessfulAllocations =
        uint32 (s.heap.xNumberOfSuccessfulFrees + s.live.length + s.leaving.length) := by
  obtain ⟨hground, free, h⟩ := reachable_sound hmem hs
  have hfree : cells free = s.freeBytes regions := h.layout.free_eq
  refine ⟨?_, ⟨minimum_reached hmem hs, ?_⟩, ?_⟩
  · rw [← hfree, ncard_cells h.layout.listed.separate]
    exact h.layout.remaining
  · rintro _ ⟨u, hu, hleads, rfl⟩
    obtain ⟨-, _, hsound⟩ := reachable_sound hmem hu
    exact Nat.le_trans (hleads.minimum hsound hground) hsound.minimum
  · exact h.calls_eq

theorem accounts_exact_busy :
    xPortGetFreeHeapSize sampleBusy.heap = (sampleBusy.freeBytes sampleRegions).ncard ∧
      IsLeast {n | ∃ u, (system 0x20000100 sampleRegions).ReachableBy Service.allowed u ∧
          Leads u sampleBusy ∧ xPortGetFreeHeapSize u.heap = n}
        (xPortGetMinimumEverFreeHeapSize sampleBusy.heap) ∧
      sampleBusy.heap.xNumberOfSuccessfulAllocations =
        uint32 (sampleBusy.heap.xNumberOfSuccessfulFrees + sampleBusy.live.length +
          sampleBusy.leaving.length) :=
  accounts_exact sample_memories sampleBusy_reachable

end Carbon.Heap
