import Carbon.Heap.Memory
import Carbon.Library.FreeList

namespace Carbon.Heap

open FreeList

-- Two headers in different places.
def HeaderApart (p q : Nat) : Prop := p + 8 ≤ q ∨ q + 8 ≤ p

theorem HeaderApart.symm {p q : Nat} (h : HeaderApart p q) : HeaderApart q p := Or.symm h

-- The only words that differ are those of the header at `q`.
def OnlyHeader (q : Nat) (word word' : Memory) : Prop := ∀ a, a ≠ q → a ≠ q + 4 → word' a = word a

namespace Memory

variable {word word' : Memory} {p q v : Nat}

@[simp] theorem next_setNext : (word.setNext p v).pxNextFreeBlock p = v := if_pos rfl

@[simp] theorem size_setSize : (word.setSize p v).xBlockSize p = v := if_pos rfl

@[simp] theorem next_setSize :
    (word.setSize p v).pxNextFreeBlock p = word.pxNextFreeBlock p := if_neg (by omega)

@[simp] theorem size_setNext :
    (word.setNext p v).xBlockSize p = word.xBlockSize p := if_neg (by omega)

theorem onlyHeader_setNext : OnlyHeader p word (word.setNext p v) := fun _ h _ => if_neg h

theorem onlyHeader_setSize : OnlyHeader p word (word.setSize p v) := fun _ _ h => if_neg h

end Memory

namespace OnlyHeader

variable {word word' word'' : Memory} {p q : Nat}

theorem trans (h : OnlyHeader q word word') (h' : OnlyHeader q word' word'') :
    OnlyHeader q word word'' :=
  fun a hnext hsize => (h' a hnext hsize).trans (h a hnext hsize)

theorem next (h : OnlyHeader q word word') (hpq : HeaderApart p q) :
    word'.pxNextFreeBlock p = word.pxNextFreeBlock p := by
  unfold HeaderApart at hpq
  exact h p (by omega) (by omega)

theorem size (h : OnlyHeader q word word') (hpq : HeaderApart p q) :
    word'.xBlockSize p = word.xBlockSize p := by
  unfold HeaderApart at hpq
  exact h (p + 4) (by omega) (by omega)

end OnlyHeader

-- The list from the link at `p` through the given blocks to `last`.
def Chain (word : Memory) (p : Nat) : List Block → Nat → Prop
  | [], last => word.pxNextFreeBlock p = last
  | b :: rest, last =>
    word.pxNextFreeBlock p = b.start ∧ word.xBlockSize b.start = b.size ∧ Chain word b.start rest last

-- The last link of a stretch of the list, and where the link in front of it points.
def lastLink (p : Nat) : List Block → Nat
  | [] => p
  | b :: rest => lastLink b.start rest

def firstOf (last : Nat) : List Block → Nat
  | [] => last
  | b :: _ => b.start

variable {word word' : Memory} {p q last target : Nat} {b c : Block} {bs cs : List Block}

theorem chain_append :
    Chain word p (bs ++ cs) last ↔ Chain word p bs (firstOf last cs) ∧
    Chain word (lastLink p bs) cs last := by
  induction bs generalizing p with
  | nil =>
      cases cs with
      | nil => simp [Chain, lastLink, firstOf]
      | cons c rest => simp [Chain, lastLink, firstOf]
  | cons b rest ih => simp only [List.cons_append, Chain, lastLink, ih, and_assoc]

@[simp] theorem lastLink_append_singleton : lastLink p (bs ++ [c]) = c.start := by
  induction bs generalizing p with
  | nil => rfl
  | cons b rest ih => exact ih

theorem Chain.first (h : Chain word p bs last) : word.pxNextFreeBlock p = firstOf last bs := by
  cases bs with
  | nil => exact h
  | cons b rest => exact h.1

theorem lastLink_mem (p : Nat) (bs : List Block) :
    lastLink p bs = p ∨ ∃ b ∈ bs, lastLink p bs = b.start := by
  induction bs generalizing p with
  | nil => exact .inl rfl
  | cons b rest ih =>
      rcases ih b.start with h | ⟨c, hc, h⟩
      · exact .inr ⟨b, by simp, h⟩
      · exact .inr ⟨c, by simp [hc], h⟩

-- The list only reads the headers it goes through.
theorem Chain.congr (h : Chain word p bs last) (hp : word'.pxNextFreeBlock p = word.pxNextFreeBlock p)
    (hbs : ∀ b ∈ bs, word'.pxNextFreeBlock b.start = word.pxNextFreeBlock b.start ∧
      word'.xBlockSize b.start = word.xBlockSize b.start) : Chain word' p bs last := by
  induction bs generalizing p with
  | nil => exact hp.trans h
  | cons b rest ih =>
      obtain ⟨hb, hrest⟩ := List.forall_mem_cons.mp hbs
      obtain ⟨hnext, hsize, htail⟩ := h
      exact ⟨hp.trans hnext, hb.2.trans hsize, ih htail hb.1 hrest⟩

theorem Chain.frame (h : Chain word p bs last) (hword : OnlyHeader q word word')
    (hp : HeaderApart p q)
    (hbs : ∀ b ∈ bs, HeaderApart b.start q) : Chain word' p bs last :=
  h.congr (hword.next hp) fun b hb => ⟨hword.next (hbs b hb), hword.size (hbs b hb)⟩

-- Headers of a list in pairwise different places.
def Spread (p : Nat) (bs : List Block) : Prop := (p :: bs.map Block.start).Pairwise HeaderApart

theorem spread_cons : Spread p (b :: bs) ↔
    HeaderApart p b.start ∧ (∀ c ∈ bs, HeaderApart p c.start) ∧ Spread b.start bs := by
  simp [Spread, and_assoc]

theorem Spread.away (h : Spread p bs) : ∀ b ∈ bs, HeaderApart p b.start := by
  unfold Spread at h
  simpa using (List.pairwise_cons.mp h).1

theorem Spread.atLink (h : Spread p (bs ++ cs)) : Spread (lastLink p bs) cs := by
  induction bs generalizing p with
  | nil => exact h
  | cons b rest ih => exact ih (spread_cons.mp h).2.2

theorem Spread.lastLink_apart (h : Spread p (bs ++ cs)) :
    ∀ c ∈ cs, HeaderApart (lastLink p bs) c.start :=
  h.atLink.away

theorem Spread.left (h : Spread p (bs ++ cs)) : Spread p bs := by
  unfold Spread at *
  rw [List.map_append, ← List.cons_append] at h
  exact (List.pairwise_append.mp h).1

theorem Spread.before (h : Spread p (bs ++ b :: cs)) : ∀ c ∈ bs, HeaderApart c.start b.start := by
  unfold Spread at h
  rw [List.map_append, ← List.cons_append] at h
  intro c hc
  exact (List.pairwise_append.mp h).2.2 c.start
    (by simp only [List.mem_cons, List.mem_map]; exact .inr ⟨c, hc, rfl⟩)
    b.start (by simp)

-- The stretch in front of a link that is set anew.
theorem Chain.relink (h : Chain word p bs last) (hspread : Spread p bs) :
    Chain (word.setNext (lastLink p bs) target) p bs target := by
  induction bs generalizing p with
  | nil => exact Memory.next_setNext
  | cons b rest ih =>
      obtain ⟨hb, hrest, htail⟩ := spread_cons.mp hspread
      obtain ⟨hnext, hsize, hchain⟩ := h
      have honly : OnlyHeader (lastLink b.start rest) word
          (word.setNext (lastLink b.start rest) target) :=
        Memory.onlyHeader_setNext
      refine ⟨?_, ?_, ih hchain htail⟩
      · have hp : HeaderApart p (lastLink b.start rest) := by
          rcases lastLink_mem b.start rest with hlast | ⟨c, hc, hlast⟩
          · rw [hlast]; exact hb
          · rw [hlast]; exact hrest c hc
        exact (honly.next hp).trans hnext
      · rcases lastLink_mem b.start rest with hlast | ⟨c, hc, hlast⟩
        · change (word.setNext (lastLink b.start rest) target).xBlockSize b.start = b.size
          rw [hlast, Memory.size_setNext]
          exact hsize
        · exact (honly.size (hlast ▸ htail.away c hc)).trans hsize

-- The same blocks behind another link that points to the first of them.
theorem Chain.behind (h : Chain word p bs last)
    (hnext : word'.pxNextFreeBlock q = word.pxNextFreeBlock p)
    (hword : OnlyHeader q word word') (hbs : ∀ b ∈ bs, HeaderApart q b.start) :
    Chain word' q bs last := by
  cases bs with
  | nil => exact hnext.trans h
  | cons b rest =>
      obtain ⟨hb, hrest⟩ := List.forall_mem_cons.mp hbs
      obtain ⟨hfirst, hsize, htail⟩ := h
      exact ⟨hnext.trans hfirst, (hword.size hb.symm).trans hsize,
        htail.frame hword hb.symm fun c hc => (hrest c hc).symm⟩

-- A block is taken out of the list.
theorem Chain.unlink (h : Chain word p (bs ++ b :: cs) last) (hspread : Spread p (bs ++ b :: cs)) :
    Chain (word.setNext (lastLink p bs) (word.pxNextFreeBlock b.start)) p (bs ++ cs) last := by
  obtain ⟨hfront, hlink⟩ := chain_append.mp h
  obtain ⟨hnext, hsize, hback⟩ := hlink
  have hapart := hspread.lastLink_apart
  apply chain_append.mpr
  constructor
  · rw [← hback.first]
    exact hfront.relink hspread.left
  · exact hback.behind Memory.next_setNext Memory.onlyHeader_setNext fun c hc =>
      hapart c (by simp [hc])

-- The walk of an insertion ends at the last block in front of the new one.
theorem insertAfter_chain (h : Chain word p (bs ++ cs) last) {new : Nat}
    (hfront : ∀ b ∈ bs, b.start < new)
    (hback : ∀ c ∈ cs, new < c.start) (hlast : new < last) {fuel : Nat} (hfuel : bs.length < fuel) :
    insertAfter word new fuel p = some (lastLink p bs) := by
  induction bs generalizing p fuel with
  | nil =>
      obtain ⟨fuel, rfl⟩ := Nat.exists_eq_add_of_lt hfuel
      have hstop : ¬word.pxNextFreeBlock p < new := by
        have hfirst := Chain.first h
        cases cs with
        | nil => rw [hfirst, List.nil_append, firstOf]; omega
        | cons c rest => rw [hfirst, List.nil_append, firstOf]; have := hback c (by simp); omega
      rw [insertAfter, if_neg hstop, lastLink]
  | cons b rest ih =>
      obtain ⟨hb, hrest⟩ := List.forall_mem_cons.mp hfront
      obtain ⟨hnext, -, htail⟩ := h
      rw [List.length_cons] at hfuel
      obtain ⟨fuel, rfl⟩ := Nat.exists_eq_add_of_lt hfuel
      rw [insertAfter, if_pos (hnext ▸ hb), hnext, ih htail hrest (by omega), lastLink]

-- The new block with what is behind its place. Its header may be that of the link itself,
-- when the block in front has taken it in.
theorem mergeBehind_chain {size : Nat} (h : Chain word p cs last) (hq : word.xBlockSize q = size)
    (hbound : q + size + total cs < 2 ^ 32) (hplace : p = q ∨ HeaderApart p q)
    (hapart : ∀ c ∈ cs, HeaderApart q c.start) (hspread : Spread p cs)
    (hlast : ∀ c ∈ cs, c.start ≠ last) :
    OnlyHeader q word (mergeBehind word last p q) ∧
      ∃ b rest, absorb ⟨q, size⟩ cs = b :: rest ∧ b.start = q ∧
        (mergeBehind word last p q).xBlockSize q = b.size ∧
        Chain (mergeBehind word last p q) q rest last ∧
        rest ⊆ cs := by
  have hstop : uint32 (q + word.xBlockSize q) = q + size := by
    rw [hq]
    exact uint32_of_lt (by omega)
  cases cs with
  | nil =>
      have hnext : word.pxNextFreeBlock p = last := h
      have hmerge : mergeBehind word last p q = word.setNext q last := by
        unfold mergeBehind
        rw [hnext]
        simp
      rw [hmerge]
      exact ⟨Memory.onlyHeader_setNext, ⟨q, size⟩, [], rfl, rfl, by simpa using hq,
        Memory.next_setNext, by simp⟩
  | cons c rest =>
      obtain ⟨hnext, hsize, htail⟩ := h
      obtain ⟨hc, hrest⟩ := List.forall_mem_cons.mp hapart
      have hne := hlast c (by simp)
      rw [total_cons] at hbound
      by_cases htouch : q + size = c.start
      · have hgrown : uint32 (word.xBlockSize q + word.xBlockSize c.start) = size + c.size := by
          rw [hq, hsize]
          exact uint32_of_lt (by omega)
        have honly : OnlyHeader q word (word.setSize q (size + c.size)) := Memory.onlyHeader_setSize
        have hp : (word.setSize q (size + c.size)).pxNextFreeBlock p = c.start := by
          rcases hplace with rfl | hplace
          · rw [Memory.next_setSize, hnext]
          · rw [honly.next hplace, hnext]
        have hmerge : mergeBehind word last p q =
            (word.setSize q (size + c.size)).setNext q (word.pxNextFreeBlock c.start) := by
          unfold mergeBehind
          rw [hstop, hnext, if_pos htouch, if_pos hne]
          simp only [hgrown, hp, honly.next hc.symm]
        rw [hmerge, absorb_touching (b := ⟨q, size⟩) htouch]
        refine ⟨honly.trans Memory.onlyHeader_setNext, _, _, rfl, rfl, by simp, ?_, by simp⟩
        exact htail.behind Memory.next_setNext (honly.trans Memory.onlyHeader_setNext) hrest
      · have hmerge : mergeBehind word last p q = word.setNext q c.start := by
          unfold mergeBehind
          rw [hstop, hnext, if_neg htouch]
        rw [hmerge, absorb_gap (b := ⟨q, size⟩) htouch]
        refine ⟨Memory.onlyHeader_setNext, _, _, rfl, rfl, by simpa using hq, ?_, by simp⟩
        exact Chain.behind ⟨hnext, hsize, htail⟩ (Memory.next_setNext.trans hnext.symm)
          Memory.onlyHeader_setNext hapart

-- The only words that differ are those of two headers.
def OnlyHeaders (p q : Nat) (word word' : Memory) : Prop :=
  ∀ a, a ≠ p → a ≠ p + 4 → a ≠ q → a ≠ q + 4 → word' a = word a

-- An insertion that merges nothing in front.
theorem link_chain {new : Block} (h : Chain word p (bs ++ cs) last)
    (hnew : word.xBlockSize new.start = new.size)
    (hbound : new.stop + total cs < 2 ^ 32) (hp : HeaderApart p new.start)
    (hapart : ∀ c ∈ bs ++ cs, HeaderApart new.start c.start) (hspread : Spread p (bs ++ cs))
    (hlast : ∀ c ∈ cs, c.start ≠ last) {link : Nat} (hlink : lastLink p bs = link) :
    Chain ((mergeBehind word last link new.start).setNext link new.start) p
        (bs ++ absorb new cs) last ∧
      OnlyHeaders link new.start word
        ((mergeBehind word last link new.start).setNext link new.start) ∧
      ((mergeBehind word last link new.start).setNext link new.start).xBlockSize link =
        word.xBlockSize link := by
  obtain ⟨hfront, hback⟩ := chain_append.mp h
  have hbs : ∀ c ∈ bs, HeaderApart c.start new.start := fun c hc => (hapart c (by simp [hc])).symm
  have hcs : ∀ c ∈ cs, HeaderApart new.start c.start := fun c hc => hapart c (by simp [hc])
  have hlinkcs : ∀ c ∈ cs, HeaderApart link c.start := hlink ▸ hspread.lastLink_apart
  have hlinknew : HeaderApart link new.start := by
    rcases lastLink_mem p bs with hmem | ⟨c, hc, hmem⟩
    · rw [← hlink, hmem]; exact hp
    · rw [← hlink, hmem]; exact hbs c hc
  have hspreadcs : Spread link cs := hlink ▸ hspread.atLink
  rw [hlink] at hback
  obtain ⟨hword, b, rest, habsorb, hstart, hsize, hrest, hsub⟩ :=
    mergeBehind_chain hback hnew (by unfold Block.stop at hbound; omega) (.inr hlinknew) hcs
      hspreadcs hlast
  have honly : OnlyHeader link (mergeBehind word last link new.start)
    ((mergeBehind word last link new.start).setNext link new.start) := Memory.onlyHeader_setNext
  refine ⟨?_, ?_, by rw [Memory.size_setNext, hword.size hlinknew]⟩
  · rw [habsorb]
    apply chain_append.mpr
    constructor
    · rw [firstOf, hstart, ← hlink]
      exact (hfront.frame (hlink ▸ hword) hp hbs).relink hspread.left
    · rw [hlink]
      refine ⟨by rw [Memory.next_setNext, hstart], ?_, ?_⟩
      · rw [hstart, honly.size hlinknew.symm]
        exact hsize
      · rw [hstart]
        exact hrest.frame honly hlinknew.symm fun c hc => (hlinkcs c (hsub hc)).symm
  · intro a hnext hsize hnext' hsize'
    exact (honly a hnext hsize).trans (hword a hnext' hsize')

-- An insertion behind a block that takes the new one in.
theorem grow_chain {new : Block} (h : Chain word p (bs ++ c :: cs) last)
    (hbound : c.stop + new.size + total cs < 2 ^ 32) (hspread : Spread p (bs ++ c :: cs))
    (hlast : ∀ c ∈ cs, c.start ≠ last) {grown : Memory}
    (hgrown : grown = word.setSize c.start (c.size + new.size)) :
    Chain (mergeBehind grown last c.start c.start) p 
        (bs ++ absorb ⟨c.start, c.size + new.size⟩ cs) last ∧
      OnlyHeader c.start word (mergeBehind grown last c.start c.start) := by
  obtain ⟨hfront, hnext, -, hback⟩ := chain_append.mp h
  have hspreadcs : Spread c.start cs := (spread_cons.mp hspread.atLink).2.2
  have honly : OnlyHeader c.start word grown := hgrown ▸ Memory.onlyHeader_setSize
  have hback' : Chain grown c.start cs last :=
    hback.behind (by rw [hgrown, Memory.next_setSize]) honly hspreadcs.away
  obtain ⟨hword, b, rest, habsorb, hstart, hsize, hrest, -⟩ :=
    mergeBehind_chain hback' (by rw [hgrown, Memory.size_setSize]) (by unfold Block.stop at hbound; omega)
      (.inl rfl)
      hspreadcs.away hspreadcs hlast
  have hall := honly.trans hword
  refine ⟨?_, hall⟩
  rw [habsorb]
  apply chain_append.mpr
  constructor
  · rw [firstOf, hstart]
    exact hfront.frame hall (hspread.away c (by simp)) hspread.before
  · have hlink : HeaderApart (lastLink p bs) c.start := hspread.lastLink_apart c (by simp)
    exact ⟨(hall.next hlink).trans (hnext.trans hstart.symm), hstart ▸ hsize, hstart ▸ hrest⟩

-- Where a block may lie: aligned, in front of the end marker, and away from the list head.
structure Placed (xStart pxEnd : Nat) (b : Block) : Prop where
  start : 8 ∣ b.start
  size : 8 ∣ b.size
  pos : 0 < b.start
  before : b.start < pxEnd
  stop : b.stop ≤ pxEnd
  head : b.start + 8 ≤ xStart ∧ b.stop ≤ xStart ∨ xStart + 8 ≤ b.start

-- The free list of the allocator: its blocks in the memory, up to the end marker.
structure Listed (s : State) (bs : List Block) : Prop where
  chain : Chain s.word s.xStart bs s.pxEnd
  separate : bs.Pairwise Block.Separate
  placed : ∀ b ∈ bs, Placed s.xStart s.pxEnd b
  startSize : s.word.xBlockSize s.xStart = 0
  startBound : s.xStart + 8 ≤ 2 ^ 32
  endSize : s.word.xBlockSize s.pxEnd = 0
  endNext : s.word.pxNextFreeBlock s.pxEnd = 0
  endPos : 0 < s.pxEnd
  endAligned : 8 ∣ s.pxEnd
  endBound : s.pxEnd + 8 ≤ 2 ^ 32
  endApart : HeaderApart s.xStart s.pxEnd

variable {s : State} {new : Block} {x e : Nat}

theorem Placed.headApart (h : Placed x e b) : HeaderApart x b.start := by
  have := h.head
  unfold HeaderApart
  omega

theorem Placed.endApart (h : Placed x e b) (he : 8 ∣ e) : HeaderApart b.start e := by
  have := h.start
  have := h.before
  unfold HeaderApart
  omega

theorem Placed.headers (hb : Placed x e b) (hc : Placed x e c) (h : b.start ≠ c.start) :
    HeaderApart b.start c.start := by
  have := hb.start
  have := hc.start
  unfold HeaderApart
  omega

theorem Placed.join (hb : Placed x e b) (hc : Placed x e c) (h : b.stop = c.start) :
    Placed x e ⟨b.start, b.size + c.size⟩ := by
  obtain ⟨hstart, hsize, hpos, hbefore, hstop, hhead⟩ := hb
  obtain ⟨hstart', hsize', hpos', hbefore', hstop', hhead'⟩ := hc
  unfold Block.stop at *
  exact ⟨hstart, Nat.dvd_add hsize hsize', hpos, hbefore, by simp only [Block.stop]; omega,
    by simp only [Block.stop]; omega⟩

theorem spread_of_placed (hseparate : bs.Pairwise Block.Separate)
    (hplaced : ∀ b ∈ bs, Placed x e b) : Spread x bs := by
  unfold Spread
  refine List.pairwise_cons.mpr ⟨by simpa using fun b hb => (hplaced b hb).headApart,
    List.pairwise_map.mpr ?_⟩
  exact hseparate.imp_of_mem fun hb hc h => (hplaced _ hb).headers (hplaced _ hc) (Nat.ne_of_lt h.1)

theorem Listed.length (h : Listed s bs) : bs.length < walkLimit := by
  have hle :=
    length_le (n := 0) h.separate (fun _ _ => Nat.zero_le _) fun b hb => (h.placed b hb).before
  have hend := h.endBound
  unfold walkLimit
  omega

-- What insertAt makes of the list when the walk ended at the list head, which is empty
-- and takes nothing in.
theorem insertAt_head (h : Listed s cs) (hplaced : Placed s.xStart s.pxEnd new)
    (hnew : s.word.xBlockSize new.start = new.size) (hbound : new.stop + total cs ≤ s.pxEnd)
    (hapart : ∀ c ∈ cs, new.Apart c) :
    Chain (insertAt s.word s.pxEnd s.xStart new.start) s.xStart (absorb new cs) s.pxEnd ∧
      OnlyHeaders s.xStart new.start s.word (insertAt s.word s.pxEnd s.xStart new.start) ∧
      (insertAt s.word s.pxEnd s.xStart new.start).xBlockSize s.xStart = s.word.xBlockSize s.xStart := by
  have hend := h.endBound
  have hx := h.startBound
  have hne := hplaced.headApart
  have hhead : uint32 (s.xStart + s.word.xBlockSize s.xStart) ≠ new.start := by
    rw [h.startSize, Nat.add_zero, uint32_of_lt (by omega)]
    unfold HeaderApart at hne
    omega
  have hat : insertAt s.word s.pxEnd s.xStart new.start =
      (mergeBehind s.word s.pxEnd s.xStart new.start).setNext s.xStart new.start := by
    unfold insertAt mergeFront
    rw [if_neg hhead]
    exact if_pos (by unfold HeaderApart at hne; omega)
  rw [hat]
  have hchain : Chain s.word s.xStart ([] ++ cs) s.pxEnd := h.chain
  exact link_chain hchain hnew (by omega) hne
    (fun c hc => hplaced.headers (h.placed c hc) (hapart c hc).1)
    (spread_of_placed h.separate h.placed)
    (fun c hc => Nat.ne_of_lt (h.placed c hc).before) rfl

-- And when it ended at a block.
theorem insertAt_block (h : Listed s (bs ++ c :: cs)) (hplaced : Placed s.xStart s.pxEnd new)
    (hnew : s.word.xBlockSize new.start = new.size) (hbound : new.stop + total cs ≤ s.pxEnd)
    (hapart : ∀ d ∈ bs ++ c :: cs, new.Apart d) :
    Chain (insertAt s.word s.pxEnd c.start new.start) s.xStart
        (bs ++ if c.stop = new.start then absorb ⟨c.start, c.size + new.size⟩ cs else c :: absorb new cs)
        s.pxEnd ∧
      OnlyHeaders c.start new.start s.word (insertAt s.word s.pxEnd c.start new.start) := by
  have hend := h.endBound
  have hspread := spread_of_placed h.separate h.placed
  have hlast : ∀ d ∈ cs, d.start ≠ s.pxEnd :=
    fun d hd => Nat.ne_of_lt (h.placed d (by simp [hd])).before
  have hsize : s.word.xBlockSize c.start = c.size := (chain_append.mp h.chain).2.2.1
  have hstop : uint32 (c.start + s.word.xBlockSize c.start) = c.stop := by
    have := (h.placed c (by simp)).stop
    unfold Block.stop at *
    rw [hsize, uint32_of_lt (by omega)]
  by_cases htouch : c.stop = new.start
  · have hgrown : uint32 (s.word.xBlockSize c.start + s.word.xBlockSize new.start) = c.size + new.size := by
      unfold Block.stop at htouch hbound
      rw [hsize, hnew, uint32_of_lt (by omega)]
    have hat : insertAt s.word s.pxEnd c.start new.start =
        mergeBehind (s.word.setSize c.start (c.size + new.size)) s.pxEnd c.start c.start := by
      unfold insertAt mergeFront
      rw [hstop, if_pos htouch, hgrown]
      simp
    have hboundgrown : c.stop + new.size + total cs < 2 ^ 32 := by
      unfold Block.stop at *
      omega
    obtain ⟨hchain, hword⟩ := grow_chain h.chain hboundgrown hspread hlast rfl
    rw [hat, if_pos htouch]
    exact ⟨hchain, fun a hnext hsize _ _ => hword a hnext hsize⟩
  · have hat : insertAt s.word s.pxEnd c.start new.start =
        (mergeBehind s.word s.pxEnd c.start new.start).setNext c.start new.start := by
      unfold insertAt mergeFront
      rw [hstop, if_neg htouch]
      exact if_pos (hapart c (by simp)).1.symm
    have hchain : Chain s.word s.xStart (bs ++ [c] ++ cs) s.pxEnd := by simpa using h.chain
    have hheaders : ∀ d ∈ bs ++ [c] ++ cs, HeaderApart new.start d.start := fun d hd =>
      hplaced.headers (h.placed d (by simpa using hd)) (hapart d (by simpa using hd)).1
    obtain ⟨hchain, hword, -⟩ :=
      link_chain hchain hnew (by omega) hplaced.headApart hheaders
        (by simpa using hspread) hlast lastLink_append_singleton
    rw [hat, if_neg htouch]
    exact ⟨by simpa using hchain, hword⟩

-- What an insertion does to the list: the walk ends in front of the place of the new
-- block, and the list becomes that of the blocks with it released.
theorem prvInsertBlockIntoFreeList_chain (h : Listed s bs) (hplaced : Placed s.xStart s.pxEnd new)
    (hapart : ∀ c ∈ bs, new.Apart c) (hnew : s.word.xBlockSize new.start = new.size) :
    ∃ word link, prvInsertBlockIntoFreeList s new.start = some { s with word } ∧
      Chain word s.xStart (release new bs) s.pxEnd ∧ (link = s.xStart ∨ ∃ c ∈ bs, link = c.start) ∧
      OnlyHeaders link new.start s.word word ∧
      word.xBlockSize s.xStart = s.word.xBlockSize s.xStart := by
  have hlength := h.length
  obtain ⟨front, back, rfl, hfront, hback⟩ := exists_place h.separate hapart
  have hwalk : insertAfter s.word new.start walkLimit s.xStart = some (lastLink s.xStart front) :=
    insertAfter_chain h.chain hfront hback hplaced.before (by rw [List.length_append] at hlength; omega)
  have hbound : new.stop + total back ≤ s.pxEnd := by
    refine total_le (List.pairwise_append.mp h.separate).2.1 (fun c hc => ?_)
      (fun c hc => (h.placed c (by simp [hc])).stop) hplaced.stop
    have hlt := hback c hc
    have hc' := hapart c (by simp [hc])
    unfold Block.Apart Block.stop at *
    omega
  refine ⟨_, lastLink s.xStart front, by rw [prvInsertBlockIntoFreeList, hwalk, Option.map_some], ?_⟩
  rcases List.eq_nil_or_concat' front with rfl | ⟨front, c, rfl⟩
  · obtain ⟨hchain, hword, hsize⟩ := insertAt_head h hplaced hnew hbound hapart
    rw [List.nil_append, release_front hback]
    exact ⟨hchain, .inl rfl, hword, hsize⟩
  · rw [List.append_assoc, List.singleton_append] at h hapart
    obtain ⟨hchain, hword⟩ := insertAt_block h hplaced hnew hbound hapart
    rw [lastLink_append_singleton, List.append_assoc, List.singleton_append,
      release_behind h.separate (hfront c (by simp)) hback]
    refine ⟨hchain, .inr ⟨c, by simp, rfl⟩, hword, ?_⟩
    have hc := (h.placed c (by simp)).headApart
    have hn := hplaced.headApart
    unfold HeaderApart at hc hn
    exact hword _ (by omega) (by omega) (by omega) (by omega)

-- A word that is in no header of the list.
def Outside (xStart : Nat) (bs : List Block) (a : Nat) : Prop :=
  (a ≠ xStart ∧ a ≠ xStart + 4) ∧ ∀ b ∈ bs, a ≠ b.start ∧ a ≠ b.start + 4

def KeepsOutside (xStart : Nat) (bs : List Block) (word word' : Memory) : Prop :=
  ∀ a, Outside xStart bs a → word' a = word a

theorem OnlyHeaders.keepsOutside {link : Nat} (hword : OnlyHeaders link new.start word word')
    (hlink : link = x ∨ ∃ c ∈ bs, link = c.start) : KeepsOutside x (new :: bs) word word' := by
  intro a ha
  obtain ⟨hhead, hblocks⟩ := ha
  obtain ⟨hnew, hrest⟩ := List.forall_mem_cons.mp hblocks
  rcases hlink with rfl | ⟨c, hc, rfl⟩
  · exact hword a hhead.1 hhead.2 hnew.1 hnew.2
  · exact hword a (hrest c hc).1 (hrest c hc).2 hnew.1 hnew.2

theorem Listed.outside_end (h : Listed s bs) :
    Outside s.xStart bs s.pxEnd ∧ Outside s.xStart bs (s.pxEnd + 4) := by
  have hx := h.endApart
  unfold HeaderApart at hx
  refine ⟨⟨by omega, fun b hb => ?_⟩, by omega, fun b hb => ?_⟩ <;>
    · have hb' := (h.placed b hb).endApart h.endAligned
      unfold HeaderApart at hb'
      omega

theorem prvInsertBlockIntoFreeList_listed (h : Listed s bs) (hplaced : Placed s.xStart s.pxEnd new)
    (hapart : ∀ c ∈ bs, new.Apart c) (hpos : 0 < new.size)
    (hnew : s.word.xBlockSize new.start = new.size) :
    ∃ word, prvInsertBlockIntoFreeList s new.start = some { s with word } ∧
      Listed { s with word } (release new bs) ∧ KeepsOutside s.xStart (new :: bs) s.word word := by
  obtain ⟨word, link, hrun, hchain, hlink, hword, hstart⟩ :=
    prvInsertBlockIntoFreeList_chain h hplaced hapart hnew
  have hkeep := hword.keepsOutside hlink
  have hend : Outside s.xStart (new :: bs) s.pxEnd ∧ Outside s.xStart (new :: bs) (s.pxEnd + 4) := by
    obtain ⟨hnext, hsize⟩ := h.outside_end
    have hlast := hplaced.endApart h.endAligned
    unfold HeaderApart at hlast
    exact ⟨⟨hnext.1, List.forall_mem_cons.mpr ⟨by omega, hnext.2⟩⟩, hsize.1,
      List.forall_mem_cons.mpr ⟨by omega, hsize.2⟩⟩
  refine ⟨word, hrun, ?_, hkeep⟩
  exact {
    h with
    chain := hchain
    separate := release_separate h.separate hapart hpos
    placed := forall_release hplaced h.placed fun _ _ => Placed.join
    startSize := hstart.trans h.startSize
    endSize := (hkeep _ hend.2).trans h.endSize
    endNext := (hkeep _ hend.1).trans h.endNext }

-- A block that is no part of the list may have its header changed.
theorem Listed.keep (h : Listed s bs) (hplaced : Placed s.xStart s.pxEnd b)
    (hapart : ∀ c ∈ bs, b.Apart c)
    (hword : OnlyHeader b.start s.word word') : Listed { s with word := word' } bs := by
  have hend := (hplaced.endApart h.endAligned).symm
  exact {
    h with
    chain := h.chain.frame hword hplaced.headApart fun c hc =>
      (hplaced.headers (h.placed c hc) (hapart c hc).1).symm
    startSize := (hword.size hplaced.headApart).trans h.startSize
    endSize := (hword.size hend).trans h.endSize
    endNext := (hword.next hend).trans h.endNext }

-- So may any word outside the headers.
theorem Listed.store {a : Nat} (h : Listed s bs) (ha : Outside s.xStart bs a)
    (hend : a ≠ s.pxEnd ∧ a ≠ s.pxEnd + 4) (value : Nat) :
    Listed { s with word := s.word.set a value } bs := by
  have hother : ∀ y, y ≠ a → s.word.set a value y = s.word y := fun _ hy => if_neg hy
  exact {
    h with
    chain := h.chain.congr (hother _ (Ne.symm ha.1.1)) fun b hb =>
      ⟨hother _ (Ne.symm (ha.2 b hb).1), hother _ (Ne.symm (ha.2 b hb).2)⟩
    startSize := (hother _ (Ne.symm ha.1.2)).trans h.startSize
    endSize := (hother _ (Ne.symm hend.2)).trans h.endSize
    endNext := (hother _ (Ne.symm hend.1)).trans h.endNext }

theorem Listed.unlink (h : Listed s (bs ++ b :: cs)) :
    Listed { s with word := s.word.setNext (lastLink s.xStart bs) (s.word.pxNextFreeBlock b.start) }
      (bs ++ cs) := by
  have hsub : (bs ++ cs).Sublist (bs ++ b :: cs) :=
    List.Sublist.append_left (List.sublist_cons_self b cs) bs
  have honly : OnlyHeader (lastLink s.xStart bs) s.word
      (s.word.setNext (lastLink s.xStart bs) (s.word.pxNextFreeBlock b.start)) :=
    Memory.onlyHeader_setNext
  have hend : HeaderApart s.pxEnd (lastLink s.xStart bs) := by
    rcases lastLink_mem s.xStart bs with hlink | ⟨c, hc, hlink⟩
    · rw [hlink]; exact h.endApart.symm
    · rw [hlink]; exact ((h.placed c (by simp [hc])).endApart h.endAligned).symm
  have hstart : (s.word.setNext (lastLink s.xStart bs) (s.word.pxNextFreeBlock b.start)).xBlockSize
      s.xStart = 0 := by
    rcases lastLink_mem s.xStart bs with hlink | ⟨c, hc, hlink⟩
    · rw [hlink, Memory.size_setNext, h.startSize]
    · rw [honly.size (hlink ▸ (h.placed c (by simp [hc])).headApart), h.startSize]
  exact {
    h with
    chain := h.chain.unlink (spread_of_placed h.separate h.placed)
    separate := h.separate.sublist hsub
    placed := fun c hc => h.placed c (hsub.subset hc)
    startSize := hstart
    endSize := (honly.size hend).trans h.endSize
    endNext := (honly.next hend).trans h.endNext }

-- The walk of a request: past the blocks that are too small.
theorem firstFit_chain {n fuel : Nat} (h : Chain word p (bs ++ cs) last)
    (hsmall : ∀ b ∈ bs, b.size < n)
    (hpos : ∀ b ∈ bs ++ cs, 0 < b.start) (hlast : 0 < last) (hfuel : bs.length < fuel)
    (hstop : word.pxNextFreeBlock (firstOf last cs) = 0 ∨ n ≤ word.xBlockSize (firstOf last cs)) :
    firstFit word n fuel p (word.pxNextFreeBlock p) = some (lastLink p bs, firstOf last cs) := by
  induction bs generalizing p fuel with
  | nil =>
      obtain ⟨fuel, rfl⟩ := Nat.exists_eq_add_of_lt hfuel
      rw [Chain.first h, List.nil_append, firstFit, if_neg (by omega), lastLink]
  | cons b rest ih =>
      rw [List.length_cons] at hfuel
      obtain ⟨fuel, rfl⟩ := Nat.exists_eq_add_of_lt hfuel
      obtain ⟨hb, hrest⟩ := List.forall_mem_cons.mp hsmall
      obtain ⟨-, hposrest⟩ := List.forall_mem_cons.mp hpos
      obtain ⟨hnext, hsize, htail⟩ := h
      have hmore : word.pxNextFreeBlock b.start ≠ 0 := by
        have hfirst : word.pxNextFreeBlock b.start = firstOf last (rest ++ cs) := Chain.first htail
        rw [hfirst]
        cases hcs : rest ++ cs with
        | nil => exact Nat.ne_of_gt hlast
        | cons c _ => exact Nat.ne_of_gt (hposrest c (by simp [hcs]))
      rw [hnext, firstFit, if_pos ⟨hsize ▸ hb, hmore⟩, ih htail hrest hposrest (by omega), lastLink]

end Carbon.Heap
