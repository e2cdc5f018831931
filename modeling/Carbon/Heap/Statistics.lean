import Carbon.Heap.Theorems

namespace Carbon.Heap

open FreeList

variable {word : Memory} {last : Nat} {b : Block} {bs cs : List Block}

-- What the statistics make of one block and of a list of them.
def countOne (counts : Nat × Nat × Nat) (b : Block) : Nat × Nat × Nat :=
  (uint32 (counts.1 + 1), max counts.2.1 b.size,
    if b.size ≠ 0 then min counts.2.2 b.size else counts.2.2)

theorem countOne_eq (xBlocks xMaxSize xMinSize : Nat) (b : Block) :
    (uint32 (xBlocks + 1), (if xMaxSize < b.size then b.size else xMaxSize),
      (if b.size ≠ 0 then if b.size < xMinSize then b.size else xMinSize else xMinSize)) =
      countOne (xBlocks, xMaxSize, xMinSize) b := by
  unfold countOne
  refine Prod.ext rfl (Prod.ext ?_ ?_)
  · simp only
    split <;> omega
  · simp only
    split
    · split <;> omega
    · rfl

theorem countBlocks_chain {c : Nat × Nat × Nat} {fuel : Nat} (h : Chain word b.start cs last)
    (hsize : word.xBlockSize b.start = b.size) (hlast : ∀ c ∈ cs, c.start ≠ last)
    (hfuel : cs.length < fuel) :
    countBlocks word last fuel b.start c = some ((b :: cs).foldl countOne c) := by
  induction cs generalizing b c fuel with
  | nil =>
      obtain ⟨fuel, rfl⟩ := Nat.exists_eq_add_of_lt hfuel
      have hnext : word.pxNextFreeBlock b.start = last := h
      rw [countBlocks, hsize, countOne_eq, if_neg (not_not_intro hnext), List.foldl_cons,
        List.foldl_nil]
  | cons d rest ih =>
      rw [List.length_cons] at hfuel
      obtain ⟨fuel, rfl⟩ := Nat.exists_eq_add_of_lt hfuel
      obtain ⟨hd, hrest⟩ := List.forall_mem_cons.mp hlast
      obtain ⟨hnext, hsized, htail⟩ := h
      rw [countBlocks, hsize, countOne_eq, hnext, if_pos hd, List.foldl_cons]
      exact ih htail hsized hrest (by omega)

theorem foldl_largest (counts : Nat × Nat × Nat) (bs : List Block) :
    counts.2.1 ≤ (bs.foldl countOne counts).2.1 ∧
    (∀ b ∈ bs, b.size ≤ (bs.foldl countOne counts).2.1) ∧
      ((bs.foldl countOne counts).2.1 = counts.2.1 ∨
        ∃ b ∈ bs, (bs.foldl countOne counts).2.1 = b.size) := by
  induction bs generalizing counts with
  | nil => exact ⟨Nat.le_refl _, by simp, .inl rfl⟩
  | cons b rest ih =>
      obtain ⟨hle, hall, hmem⟩ := ih (countOne counts b)
      have hone : (countOne counts b).2.1 = max counts.2.1 b.size := rfl
      rw [hone] at hle hmem
      refine ⟨by rw [List.foldl_cons]; omega,
        List.forall_mem_cons.mpr ⟨by rw [List.foldl_cons]; omega, hall⟩, ?_⟩
      rcases hmem with heq | ⟨c, hc, heq⟩
      · rcases max_choice counts.2.1 b.size with hold | hnew
        · exact .inl (heq.trans hold)
        · exact .inr ⟨b, by simp, heq.trans hnew⟩
      · exact .inr ⟨c, by simp [hc], heq⟩

theorem foldl_smallest (counts : Nat × Nat × Nat) (bs : List Block) :
    (bs.foldl countOne counts).2.2 ≤ counts.2.2 ∧
    (∀ b ∈ bs, 0 < b.size → (bs.foldl countOne counts).2.2 ≤ b.size) ∧
      ((bs.foldl countOne counts).2.2 = counts.2.2 ∨
        ∃ b ∈ bs, 0 < b.size ∧ (bs.foldl countOne counts).2.2 = b.size) := by
  induction bs generalizing counts with
  | nil => exact ⟨Nat.le_refl _, by simp, .inl rfl⟩
  | cons b rest ih =>
      obtain ⟨hle, hall, hmem⟩ := ih (countOne counts b)
      have hone : (countOne counts b).2.2 =
          if b.size ≠ 0 then min counts.2.2 b.size else counts.2.2 := rfl
      rw [hone] at hle hmem
      rw [List.foldl_cons]
      by_cases hb : b.size = 0
      · rw [if_neg (not_not_intro hb)] at hle hmem
        refine ⟨hle, List.forall_mem_cons.mpr ⟨fun hpos => by omega, hall⟩, ?_⟩
        rcases hmem with heq | ⟨c, hc, hsize⟩
        · exact .inl heq
        · exact .inr ⟨c, by simp [hc], hsize⟩
      · rw [if_pos hb] at hle hmem
        refine ⟨by omega, List.forall_mem_cons.mpr ⟨fun _ => by omega, hall⟩, ?_⟩
        rcases hmem with heq | ⟨c, hc, hsize⟩
        · rcases min_choice counts.2.2 b.size with hold | hnew
          · exact .inl (heq.trans hold)
          · exact .inr ⟨b, by simp, by omega, heq.trans hnew⟩
        · exact .inr ⟨c, by simp [hc], hsize⟩

-- The counters after a walk over a list with a block that is not empty: the sizes of the
-- longest and of the shortest maximal run.
theorem largest_isGreatest (hbs : bs.Pairwise Block.Separate) (hb : b ∈ bs) (hpos : 0 < b.size) :
    IsGreatest {n | ∃ a, Maximal (cells bs) a n} (bs.foldl countOne (0, 0, portMAX_DELAY)).2.1 := by
  obtain ⟨-, hall, hmem⟩ := foldl_largest (0, 0, portMAX_DELAY) bs
  have hle := hall b hb
  constructor
  · refine (exists_maximal_iff hbs).mpr ?_
    rcases hmem with hzero | ⟨c, hc, heq⟩
    · have hzero : (bs.foldl countOne (0, 0, portMAX_DELAY)).2.1 = 0 := hzero
      omega
    · exact ⟨c, hc, by omega, heq⟩
  · intro n hn
    obtain ⟨c, hc, -, rfl⟩ := (exists_maximal_iff hbs).mp hn
    exact hall c hc

theorem smallest_isLeast (hbs : bs.Pairwise Block.Separate) (hb : b ∈ bs) (hpos : 0 < b.size)
    (hsmall : b.size < portMAX_DELAY) :
    IsLeast {n | ∃ a, Maximal (cells bs) a n} (bs.foldl countOne (0, 0, portMAX_DELAY)).2.2 := by
  obtain ⟨-, hall, hmem⟩ := foldl_smallest (0, 0, portMAX_DELAY) bs
  have hle := hall b hb hpos
  constructor
  · refine (exists_maximal_iff hbs).mpr ?_
    rcases hmem with hmax | ⟨c, hc, hpos, heq⟩
    · have hmax : (bs.foldl countOne (0, 0, portMAX_DELAY)).2.2 = portMAX_DELAY := hmax
      omega
    · exact ⟨c, hc, hpos, heq⟩
  · intro n hn
    obtain ⟨c, hc, hpos, rfl⟩ := (exists_maximal_iff hbs).mp hn
    exact hall c hc hpos

theorem countFreeBlocks_listed {s : State} (h : Listed s bs) (hb : b ∈ bs) :
    countFreeBlocks s = some (bs.foldl countOne (0, 0, portMAX_DELAY)) := by
  obtain ⟨first, rest, rfl⟩ : ∃ first rest, bs = first :: rest :=
    List.exists_cons_of_ne_nil (List.ne_nil_of_mem hb)
  obtain ⟨hnext, hsize, hchain⟩ := h.chain
  have hlast : ∀ c ∈ rest, c.start ≠ s.pxEnd := fun c hc =>
    Nat.ne_of_lt (h.placed c (by simp [hc])).before
  have hlength := h.length
  rw [List.length_cons] at hlength
  unfold countFreeBlocks
  rw [hnext, if_pos (Nat.ne_of_gt (h.placed first (by simp)).pos)]
  exact countBlocks_chain hchain hsize hlast (Nat.lt_of_succ_lt hlength)

variable {xStart : Nat} {regions : List HeapRegion_t} {s t : Service}

-- A walk while anything is free finds the longest and the shortest run of free bytes that
-- cannot be extended.
theorem Sound.walk {ground free : List Block} (h : Sound ground s free) (hground : Ground ground)
    (hsome : (cells free).Nonempty) :
    ∃ counts, countFreeBlocks s.heap = some counts ∧
      IsGreatest {n | ∃ a, Maximal (cells free) a n} counts.2.1 ∧
      IsLeast {n | ∃ a, Maximal (cells free) a n} counts.2.2 := by
  have hlisted := h.layout.listed
  obtain ⟨y, b, hb, hstart, hstop⟩ := hsome
  have hpos : 0 < b.size := by
    unfold Block.stop at hstop
    omega
  have hsmall : b.size < 2 ^ 31 := size_lt_of_subset hground hpos fun y hy => by
    rw [← h.layout.covers]
    exact .inl ⟨b, hb, hy⟩
  exact ⟨_, countFreeBlocks_listed hlisted hb, largest_isGreatest hlisted.separate hb hpos,
    smallest_isLeast hlisted.separate hb hpos (Nat.lt_trans hsmall (by decide))⟩

theorem Leads.reachable (hs : (system xStart regions).ReachableBy Service.allowed s) (h : Leads s t) :
    (system xStart regions).ReachableBy Service.allowed t := by
  induction h with
  | refl => exact hs
  | tail _ hstep ih =>
      obtain ⟨call, hallowed, hrun⟩ := hstep
      exact .next ih hallowed hrun

-- The sizes are those of the state the walk found, with some bytes free, the accounts those
-- of the state the tasks have come to by the critical section.
theorem statistics_exact (hmem : Memories xStart regions)
    (hs : (system xStart regions).ReachableBy Service.allowed s)
    (hsome : (s.freeBytes regions).Nonempty) (hleads : Leads s t) :
    ∃ stats, vPortGetHeapStats s.heap t.heap = some stats ∧
      IsGreatest {n | ∃ a, Maximal (s.freeBytes regions) a n} stats.xSizeOfLargestFreeBlockInBytes ∧
      IsLeast {n | ∃ a, Maximal (s.freeBytes regions) a n} stats.xSizeOfSmallestFreeBlockInBytes ∧
      stats.xAvailableHeapSpaceInBytes = (t.freeBytes regions).ncard ∧
      stats.xMinimumEverFreeBytesRemaining = xPortGetMinimumEverFreeHeapSize t.heap ∧
      stats.xNumberOfSuccessfulAllocations =
        uint32 (stats.xNumberOfSuccessfulFrees + t.live.length + t.leaving.length) := by
  obtain ⟨hground, free, h⟩ := reachable_sound hmem hs
  obtain ⟨-, free', h'⟩ := reachable_sound hmem (hleads.reachable hs)
  have hfree : cells free = s.freeBytes regions := h.layout.free_eq
  have hfree' : cells free' = t.freeBytes regions := h'.layout.free_eq
  rw [← hfree] at hsome ⊢
  obtain ⟨counts, hwalk, hlargest, hsmallest⟩ := h.walk hground hsome
  refine ⟨_, congrArg (Option.map _) hwalk, hlargest, hsmallest, ?_, rfl, h'.calls_eq⟩
  rw [← hfree', ncard_cells h'.layout.listed.separate]
  exact h'.layout.remaining

theorem sampleBusy_not_full : (sampleBusy.freeBytes sampleRegions).Nonempty := by
  have hcovered : ∃ region ∈ areas sampleRegions,
      region.start ≤ 0x24000030 ∧ 0x24000030 < region.stop := by
    decide +kernel
  have hheld : ∀ b ∈ sampleBusy.held, ¬(b.start ≤ 0x24000030 ∧ 0x24000030 < b.stop) := by
    decide +kernel
  refine ⟨0x24000030, hcovered, ?_⟩
  rintro ⟨b, hb, hin⟩
  exact hheld b hb hin

-- Another task gets its request served between the walk and the critical section.
theorem statistics_exact_busy : ∃ stats, vPortGetHeapStats sampleBusy.heap sampleLater.heap = some stats ∧
    IsGreatest {n | ∃ a, Maximal (sampleBusy.freeBytes sampleRegions) a n}
      stats.xSizeOfLargestFreeBlockInBytes ∧
    IsLeast {n | ∃ a, Maximal (sampleBusy.freeBytes sampleRegions) a n}
      stats.xSizeOfSmallestFreeBlockInBytes ∧
    stats.xAvailableHeapSpaceInBytes = (sampleLater.freeBytes sampleRegions).ncard ∧
    stats.xMinimumEverFreeBytesRemaining = xPortGetMinimumEverFreeHeapSize sampleLater.heap ∧
    stats.xNumberOfSuccessfulAllocations =
      uint32 (stats.xNumberOfSuccessfulFrees + sampleLater.live.length + sampleLater.leaving.length) :=
  statistics_exact sample_memories sampleBusy_reachable sampleBusy_not_full
    (.single ⟨.malloc 30, by decide, (Option.some_get sampleBusy_request).symm⟩)

end Carbon.Heap
