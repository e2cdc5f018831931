import Mathlib.Algebra.BigOperators.Group.List.Basic
import Mathlib.Data.Nat.Basic
import Mathlib.Data.Set.Card
import Mathlib.Order.Interval.Finset.Nat
import Mathlib.Order.Bounds.Defs

-- The free space of an allocator as a list of blocks in address order. A block that is
-- given back is merged with the blocks it touches. Blocks of size zero are allowed: they
-- only link separate stretches of memory.
namespace FreeList

structure Block where
  start : Nat
  size : Nat
deriving DecidableEq, Repr

namespace Block

def stop (b : Block) : Nat := b.start + b.size

def cells (b : Block) : Set Nat := {x | b.start ≤ x ∧ x < b.stop}

-- One block does not reach into the other.
def Apart (b c : Block) : Prop := b.start ≠ c.start ∧ (b.stop ≤ c.start ∨ c.stop ≤ b.start)

-- A block in front of another. Two blocks that are not empty leave a gap.
def Separate (b c : Block) : Prop :=
  b.start < c.start ∧ b.stop ≤ c.start ∧ (0 < b.size → 0 < c.size → b.stop < c.start)

instance (b c : Block) : Decidable (b.Apart c) := inferInstanceAs (Decidable (_ ∧ _))

instance (b c : Block) : Decidable (b.Separate c) := inferInstanceAs (Decidable (_ ∧ _))

variable {b c : Block} {x : Nat}

@[simp] theorem mem_cells : x ∈ b.cells ↔ b.start ≤ x ∧ x < b.stop := Iff.rfl

theorem Apart.symm (h : b.Apart c) : c.Apart b := ⟨h.1.symm, h.2.symm⟩

theorem Apart.notMem (h : b.Apart c) (hx : x ∈ b.cells) : x ∉ c.cells := by
  intro hx'
  rw [mem_cells] at hx hx'
  unfold Apart at h
  omega

theorem Separate.apart (h : b.Separate c) : b.Apart c := ⟨by have := h.1; omega, .inl h.2.1⟩

end Block

open Block

def cells (blocks : List Block) : Set Nat := {x | ∃ b ∈ blocks, x ∈ b.cells}

def total (blocks : List Block) : Nat := (blocks.map Block.size).sum

-- The block in front takes the first of the list in when the two touch.
def absorb (b : Block) : List Block → List Block
  | [] => [b]
  | c :: rest => if b.stop = c.start then ⟨b.start, b.size + c.size⟩ :: rest else b :: c :: rest

def release (b : Block) : List Block → List Block
  | [] => [b]
  | c :: rest =>
    if c.start < b.start then
      if c.stop = b.start then absorb ⟨c.start, c.size + b.size⟩ rest else c :: release b rest
    else absorb b (c :: rest)

variable {b c d : Block} {bs cs : List Block} {x n : Nat}

theorem absorb_touching (h : b.stop = c.start) :
    absorb b (c :: cs) = ⟨b.start, b.size + c.size⟩ :: cs := by
  rw [absorb, if_pos h]

theorem absorb_gap (h : b.stop ≠ c.start) : absorb b (c :: cs) = b :: c :: cs := by
  rw [absorb, if_neg h]

section Cells

@[simp] theorem cells_nil : cells [] = ∅ := by
  simp [cells]

@[simp] theorem cells_cons : cells (b :: bs) = b.cells ∪ cells bs := by
  ext x
  simp [cells]

@[simp] theorem cells_append : cells (bs ++ cs) = cells bs ∪ cells cs := by
  induction bs with
  | nil => simp
  | cons b bs ih => rw [List.cons_append, cells_cons, ih, cells_cons, Set.union_assoc]

@[simp] theorem total_nil : total [] = 0 := rfl

@[simp] theorem total_cons : total (b :: bs) = b.size + total bs := by
  simp [total]

@[simp] theorem total_append : total (bs ++ cs) = total bs + total cs := by
  simp [total]

theorem size_le_total (h : b ∈ bs) : b.size ≤ total bs := by
  obtain ⟨front, back, rfl⟩ := List.append_of_mem h
  rw [total_append, total_cons]
  omega

-- A block and the one it touches, as one.
theorem cells_touching (h : b.stop = c.start) :
    Block.cells ⟨b.start, b.size + c.size⟩ = b.cells ∪ c.cells := by
  ext x
  unfold Block.stop at h
  simp only [mem_cells, Block.stop, Set.mem_union]
  omega

theorem cells_absorb : cells (absorb b bs) = b.cells ∪ cells bs := by
  cases bs with
  | nil => simp [absorb]
  | cons c rest =>
      simp only [absorb]
      split
      · rename_i htouch
        rw [cells_cons, cells_touching htouch, cells_cons, Set.union_assoc]
      · rw [cells_cons]

theorem total_absorb : total (absorb b bs) = b.size + total bs := by
  cases bs with
  | nil => simp [absorb]
  | cons c rest =>
      simp only [absorb]
      split <;> simp only [total_cons, Nat.add_assoc]

theorem cells_release : cells (release b bs) = b.cells ∪ cells bs := by
  induction bs with
  | nil => simp [release]
  | cons c rest ih =>
      simp only [release]
      split
      · split
        · rename_i htouch
          rw [cells_absorb, cells_touching htouch, cells_cons, Set.union_comm c.cells,
            Set.union_assoc]
        · rw [cells_cons, ih, cells_cons, Set.union_left_comm]
      · exact cells_absorb

theorem total_release : total (release b bs) = b.size + total bs := by
  induction bs with
  | nil => simp [release]
  | cons c rest ih =>
      simp only [release]
      split
      · split
        · simp only [total_absorb, total_cons]
          omega
        · simp only [total_cons, ih]
          omega
      · exact total_absorb

end Cells

section Order

theorem mem_absorb (h : d ∈ absorb b bs) : d.start = b.start ∨ d ∈ bs := by
  cases bs with
  | nil =>
      rw [absorb, List.mem_singleton] at h
      exact .inl (congrArg Block.start h)
  | cons c rest =>
      simp only [absorb] at h
      split at h
      · rcases List.mem_cons.mp h with rfl | hrest
        · exact .inl rfl
        · exact .inr (List.mem_cons_of_mem c hrest)
      · rcases List.mem_cons.mp h with rfl | hrest
        · exact .inl rfl
        · exact .inr hrest

-- A block of the new list starts where the new block does or where one of the old list
-- did, which was not empty unless it still is.
theorem start_release (hb : ∀ c ∈ bs, b.Apart c) (h : d ∈ release b bs) :
    d.start = b.start ∨ ∃ c ∈ bs, d.start = c.start ∧ (0 < d.size → 0 < c.size) := by
  induction bs with
  | nil =>
      rw [release, List.mem_singleton] at h
      exact .inl (congrArg Block.start h)
  | cons c rest ih =>
      simp only [release] at h
      split at h
      · rename_i hlt
        split at h
        · rename_i htouch
          rcases mem_absorb h with hstart | hrest
          · refine .inr ⟨c, by simp, hstart, fun _ => ?_⟩
            unfold Block.stop at htouch
            omega
          · exact .inr ⟨d, by simp [hrest], rfl, id⟩
        · rcases List.mem_cons.mp h with rfl | hrest
          · exact .inr ⟨d, by simp, rfl, id⟩
          · rcases ih (fun e he => hb e (List.mem_cons_of_mem c he)) hrest with hstart | ⟨e, he, hold⟩
            · exact .inl hstart
            · exact .inr ⟨e, by simp [he], hold⟩
      · rcases mem_absorb h with hstart | hmem
        · exact .inl hstart
        · exact .inr ⟨d, hmem, rfl, id⟩

theorem absorb_separate (hbs : bs.Pairwise Separate)
    (hb : ∀ c ∈ bs, b.start < c.start ∧ b.stop ≤ c.start) :
    (absorb b bs).Pairwise Separate := by
  cases bs with
  | nil => simp [absorb]
  | cons c rest =>
      obtain ⟨hc, hrest⟩ := List.pairwise_cons.mp hbs
      have hfirst := hb c (by simp)
      simp only [absorb]
      split
      · rename_i htouch
        refine List.pairwise_cons.mpr ⟨fun d hd => ?_, hrest⟩
        have hgap := hc d hd
        unfold Separate Block.stop at *
        simp only
        omega
      · rename_i htouch
        refine List.pairwise_cons.mpr ⟨fun d hd => ?_, hbs⟩
        rcases List.mem_cons.mp hd with rfl | hd
        · exact ⟨hfirst.1, hfirst.2, by omega⟩
        · have hgap := hc d hd
          have hlast := hb d (List.mem_cons_of_mem c hd)
          exact ⟨hlast.1, hlast.2, fun _ _ => Nat.lt_of_le_of_lt hfirst.2 hgap.1⟩

theorem release_separate (hbs : bs.Pairwise Separate) (hb : ∀ c ∈ bs, b.Apart c) (hpos : 0 < b.size) :
    (release b bs).Pairwise Separate := by
  induction bs with
  | nil => simp [release]
  | cons c rest ih =>
      obtain ⟨hc, hrest⟩ := List.pairwise_cons.mp hbs
      have hfirst := hb c (by simp)
      have hothers : ∀ d ∈ rest, b.Apart d := fun d hd => hb d (List.mem_cons_of_mem c hd)
      simp only [release]
      split
      · rename_i hlt
        split
        · rename_i htouch
          apply absorb_separate hrest
          intro d hd
          have hgap := hc d hd
          have hapart := hothers d hd
          unfold Separate Block.Apart Block.stop at *
          simp only
          omega
        · rename_i hgap
          refine List.pairwise_cons.mpr ⟨fun d hd => ?_, ih hrest hothers⟩
          rcases start_release hothers hd with hstart | ⟨e, he, hstart, hsize⟩
          · unfold Separate Block.Apart Block.stop at *
            omega
          · have hold := hc e he
            unfold Separate at *
            omega
      · rename_i hge
        apply absorb_separate hbs
        intro d hd
        have hle : c.start ≤ d.start := by
          rcases List.mem_cons.mp hd with rfl | hd
          · exact Nat.le_refl _
          · exact Nat.le_of_lt (hc d hd).1
        have hapart := hb d hd
        unfold Block.Apart Block.stop at *
        omega

-- What holds of blocks and of what two touching ones make holds of the new list.
theorem forall_absorb {P : Block → Prop} (hb : P b) (hbs : ∀ c ∈ bs, P c)
    (hjoin : ∀ c d, P c → P d → c.stop = d.start → P ⟨c.start, c.size + d.size⟩) :
    ∀ d ∈ absorb b bs, P d := by
  cases bs with
  | nil => simpa [absorb] using hb
  | cons c rest =>
      obtain ⟨hc, hrest⟩ := List.forall_mem_cons.mp hbs
      simp only [absorb]
      split
      · rename_i htouch
        exact List.forall_mem_cons.mpr ⟨hjoin b c hb hc htouch, hrest⟩
      · exact List.forall_mem_cons.mpr ⟨hb, hbs⟩

theorem forall_release {P : Block → Prop} (hb : P b) (hbs : ∀ c ∈ bs, P c)
    (hjoin : ∀ c d, P c → P d → c.stop = d.start → P ⟨c.start, c.size + d.size⟩) :
    ∀ d ∈ release b bs, P d := by
  induction bs with
  | nil => simpa [release] using hb
  | cons c rest ih =>
      obtain ⟨hc, hrest⟩ := List.forall_mem_cons.mp hbs
      simp only [release]
      split
      · split
        · rename_i htouch
          exact forall_absorb (hjoin c b hc hb htouch) hrest hjoin
        · exact List.forall_mem_cons.mpr ⟨hc, ih hrest⟩
      · exact forall_absorb hb hbs hjoin

theorem Apart.join (hc : b.Apart c) (hd : b.Apart d) (h : c.stop = d.start) :
    b.Apart ⟨c.start, c.size + d.size⟩ := by
  unfold Block.Apart Block.stop at *
  simp only
  omega

theorem release_apart (hb : d.Apart b) (hbs : ∀ c ∈ bs, d.Apart c) : ∀ c ∈ release b bs, d.Apart c :=
  forall_release hb hbs fun _ _ hc hd => Apart.join hc hd

-- The list around the place of the new block.
theorem exists_place (hbs : bs.Pairwise Separate) (hb : ∀ c ∈ bs, b.Apart c) :
    ∃ front back, bs = front ++ back ∧ (∀ c ∈ front, c.start < b.start) ∧
      ∀ c ∈ back, b.start < c.start := by
  induction bs with
  | nil => exact ⟨[], [], rfl, by simp, by simp⟩
  | cons c rest ih =>
      obtain ⟨hc, hrest⟩ := List.pairwise_cons.mp hbs
      have hfirst := (hb c (by simp)).1
      rcases Nat.lt_or_ge c.start b.start with hlt | hge
      · obtain ⟨front, back, rfl, hfront, hback⟩ :=
          ih hrest fun d hd => hb d (List.mem_cons_of_mem c hd)
        exact ⟨c :: front, back, rfl, List.forall_mem_cons.mpr ⟨hlt, hfront⟩, hback⟩
      · refine ⟨[], c :: rest, rfl, by simp, List.forall_mem_cons.mpr ⟨by omega, fun d hd => ?_⟩⟩
        have hgap := (hc d hd).1
        omega

theorem release_front (h : ∀ c ∈ bs, b.start < c.start) : release b bs = absorb b bs := by
  cases bs with
  | nil => rfl
  | cons c rest =>
      have hc := h c (by simp)
      simp only [release]
      rw [if_neg (by omega)]

-- Only the block right in front of the place can touch the new one.
theorem release_behind (hbs : (bs ++ c :: cs).Pairwise Separate) (hc : c.start < b.start)
    (hback : ∀ d ∈ cs, b.start < d.start) :
    release b (bs ++ c :: cs) =
      bs ++ if c.stop = b.start then absorb ⟨c.start, c.size + b.size⟩ cs else c :: absorb b cs := by
  induction bs with
  | nil =>
      rw [List.nil_append, release, if_pos hc, release_front hback]
      rfl
  | cons d rest ih =>
      obtain ⟨hd, hrest⟩ := List.pairwise_cons.mp hbs
      have hgap := hd c (by simp)
      rw [List.cons_append, release, if_pos (by have := hgap.1; omega),
        if_neg (by have := hgap.2.1; omega), ih hrest, List.cons_append]

end Order

section Runs

-- n cells in a row.
def Run (free : Set Nat) (a n : Nat) : Prop := ∀ x, a ≤ x → x < a + n → x ∈ free

theorem run_of_mem (h : b ∈ bs) (hn : n ≤ b.size) : Run (cells bs) b.start n := by
  intro x hx hlt
  exact ⟨b, h, hx, by unfold Block.stop; omega⟩

theorem Pairwise.compare (hbs : bs.Pairwise Separate) (hb : b ∈ bs) (hc : c ∈ bs) :
    b = c ∨ b.Separate c ∨ c.Separate b := by
  induction hbs with
  | nil => cases hb
  | cons hfirst _ ih =>
      rcases List.mem_cons.mp hb with hbhead | hbrest <;> rcases List.mem_cons.mp hc with hchead | hcrest
      · exact .inl (hbhead.trans hchead.symm)
      · exact .inr (.inl (hbhead ▸ hfirst c hcrest))
      · exact .inr (.inr (hchead ▸ hfirst b hbrest))
      · exact ih hbrest hcrest

-- Blocks with gaps between them: a run of free cells lies in one of them.
theorem run_in_block (hbs : bs.Pairwise Separate) {a : Nat} (hn : 0 < n) (hrun : Run (cells bs) a n) :
    ∃ b ∈ bs, b.start ≤ a ∧ a + n ≤ b.stop := by
  obtain ⟨b, hb, hstart, hstop⟩ := hrun a (Nat.le_refl a) (by omega)
  refine ⟨b, hb, hstart, Nat.le_of_not_lt fun hlt => ?_⟩
  obtain ⟨c, hc, hcstart, hcstop⟩ := hrun b.stop (Nat.le_of_lt hstop) hlt
  rcases Pairwise.compare hbs hb hc with rfl | hgap | hgap <;> unfold Separate Block.stop at * <;> omega

-- A run that cannot be extended.
structure Maximal (free : Set Nat) (a n : Nat) : Prop where
  pos : 0 < n
  run : Run free a n
  before : ∀ x, x + 1 = a → x ∉ free
  behind : a + n ∉ free

-- The blocks that are not empty are the maximal runs.
theorem maximal_iff (hbs : bs.Pairwise Separate) {a : Nat} :
    Maximal (cells bs) a n ↔ ⟨a, n⟩ ∈ bs ∧ 0 < n := by
  constructor
  · rintro ⟨hn, hrun, hbefore, hbehind⟩
    obtain ⟨b, hb, hstart, hstop⟩ := run_in_block hbs hn hrun
    have hlow : b.start = a := by
      by_contra hne
      exact hbefore (a - 1) (by omega) ⟨b, hb, by omega, by omega⟩
    have hhigh : b.stop = a + n := by
      by_contra hne
      exact hbehind ⟨b, hb, by omega, by omega⟩
    obtain ⟨start, size⟩ := b
    simp only [Block.stop] at hlow hhigh
    obtain rfl : size = n := by omega
    exact ⟨hlow ▸ hb, hn⟩
  · rintro ⟨hb, hn⟩
    refine ⟨hn, run_of_mem hb (Nat.le_refl n), fun x hx hfree => ?_, fun hfree => ?_⟩ <;>
    · obtain ⟨c, hc, hstart, hstop⟩ := hfree
      rcases Pairwise.compare hbs hb hc with rfl | hgap | hgap <;>
        unfold Separate Block.stop at * <;> simp only at * <;> omega

theorem exists_maximal_iff (hbs : bs.Pairwise Separate) :
    (∃ a, Maximal (cells bs) a n) ↔ ∃ b ∈ bs, 0 < b.size ∧ n = b.size := by
  simp only [maximal_iff hbs]
  constructor
  · rintro ⟨a, hmem, hn⟩
    exact ⟨⟨a, n⟩, hmem, hn, rfl⟩
  · rintro ⟨b, hb, hn, rfl⟩
    exact ⟨b.start, hb, hn⟩

-- The first block that is large enough starts at the lowest run.
theorem first_fit_least (hbs : (bs ++ b :: cs).Pairwise Separate) (hn : 0 < n)
    (hfront : ∀ c ∈ bs, c.size < n)
    (hb : n ≤ b.size) : IsLeast {a | Run (cells (bs ++ b :: cs)) a n} b.start := by
  refine ⟨run_of_mem (by simp) hb, fun a hrun => ?_⟩
  obtain ⟨c, hc, hstart, hstop⟩ := run_in_block hbs hn hrun
  obtain ⟨-, hback, -⟩ := List.pairwise_append.mp hbs
  rcases List.mem_append.mp hc with hc | hc
  · have hsmall := hfront c hc
    unfold Block.stop at hstop
    omega
  · rcases List.mem_cons.mp hc with rfl | hc
    · exact hstart
    · have hgap := ((List.pairwise_cons.mp hback).1 c hc).1
      omega

theorem no_run (hbs : bs.Pairwise Separate) (hn : 0 < n) (h : ∀ b ∈ bs, b.size < n) (a : Nat) :
    ¬Run (cells bs) a n := by
  intro hrun
  obtain ⟨b, hb, hstart, hstop⟩ := run_in_block hbs hn hrun
  have hsmall := h b hb
  unfold Block.stop at hstop
  omega

-- Blocks in an interval are no larger together than it.
theorem total_le {m : Nat} (hbs : bs.Pairwise Separate) (hlow : ∀ b ∈ bs, n ≤ b.start)
    (hhigh : ∀ b ∈ bs, b.stop ≤ m)
    (h : n ≤ m) : n + total bs ≤ m := by
  induction bs generalizing n with
  | nil => exact h
  | cons b rest ih =>
      obtain ⟨hb, hrest⟩ := List.pairwise_cons.mp hbs
      have hstart := hlow b (by simp)
      have hsum := ih hrest (fun c hc => (hb c hc).2.1) (fun c hc => hhigh c (List.mem_cons_of_mem b hc))
        (hhigh b (by simp))
      rw [total_cons]
      unfold Block.stop at hsum
      omega

theorem Block.cells_eq (b : Block) : b.cells = ↑(Finset.Ico b.start b.stop) := by
  ext y
  simp [Block.cells]

theorem finite_cells (bs : List Block) : (cells bs).Finite := by
  induction bs with
  | nil => simp
  | cons b rest ih =>
      rw [cells_cons, Block.cells_eq]
      exact (Finset.finite_toSet _).union ih

-- The sizes add up to the number of cells.
theorem ncard_cells (hbs : bs.Pairwise Separate) : (cells bs).ncard = total bs := by
  induction bs with
  | nil => simp
  | cons b rest ih =>
      obtain ⟨hb, hrest⟩ := List.pairwise_cons.mp hbs
      have hdisjoint : Disjoint b.cells (cells rest) := by
        refine Set.disjoint_left.mpr fun y hy => ?_
        rintro ⟨c, hc, hcells⟩
        exact (hb c hc).apart.notMem hy hcells
      have hsize : b.cells.ncard = b.size := by
        rw [Block.cells_eq, Set.ncard_coe_finset, Nat.card_Ico]
        unfold Block.stop
        omega
      have hfinite : b.cells.Finite := by
        rw [Block.cells_eq]
        exact Finset.finite_toSet _
      rw [cells_cons, Set.ncard_union_eq hdisjoint hfinite (finite_cells rest), hsize, ih hrest,
        total_cons]

-- No more blocks than addresses.
theorem length_le {m : Nat} (hbs : bs.Pairwise Separate) (hlow : ∀ b ∈ bs, n ≤ b.start)
    (hhigh : ∀ b ∈ bs, b.start < m) :
    bs.length ≤ m - n := by
  induction bs generalizing n with
  | nil => exact Nat.zero_le _
  | cons b rest ih =>
      obtain ⟨hb, hrest⟩ := List.pairwise_cons.mp hbs
      have hstart := hlow b (by simp)
      have hstop := hhigh b (by simp)
      have hlength := @ih (b.start + 1) hrest (fun c hc => (hb c hc).1) fun c hc =>
        hhigh c (List.mem_cons_of_mem b hc)
      rw [List.length_cons]
      omega

end Runs

section Allocate

-- The first n cells of a block, and the rest of it back in the list when the rest is
-- larger than `least`.
def carve (least n : Nat) (b : Block) (bs : List Block) : Block × List Block :=
  if least < b.size - n then (⟨b.start, n⟩, release ⟨b.start + n, b.size - n⟩ bs) else (b, bs)

-- First fit.
def allocate (least n : Nat) (bs : List Block) : Option (Block × List Block) :=
  (bs.find? fun b => n ≤ b.size).map fun b => carve least n b (bs.eraseP fun b => n ≤ b.size)

@[simp] theorem carve_start (least n : Nat) (b : Block) (bs : List Block) :
    (carve least n b bs).1.start = b.start := by
  unfold carve
  split <;> rfl

theorem le_carve_size (least : Nat) (bs : List Block) (h : n ≤ b.size) :
    n ≤ (carve least n b bs).1.size := by
  unfold carve
  split
  · exact Nat.le_refl n
  · exact h

theorem carve_size_le (least : Nat) (bs : List Block) :
    (carve least n b bs).1.size ≤ n + least := by
  unfold carve
  split
  · exact Nat.le_add_right n least
  · simp only
    omega

theorem cells_carve (least : Nat) (bs : List Block) (h : n ≤ b.size) :
    (carve least n b bs).1.cells ∪ cells (carve least n b bs).2 = b.cells ∪ cells bs := by
  unfold carve
  split
  · have hsplit := cells_touching (b := ⟨b.start, n⟩) (c := ⟨b.start + n, b.size - n⟩) rfl
    simp only [Nat.add_sub_cancel' h] at hsplit
    rw [cells_release, ← Set.union_assoc, ← hsplit]
  · rfl

theorem total_carve (least : Nat) (bs : List Block) (h : n ≤ b.size) :
    (carve least n b bs).1.size + total (carve least n b bs).2 = b.size + total bs := by
  unfold carve
  split
  · simp only [total_release]
    omega
  · rfl

theorem Apart.part (h : b.Apart c) (hn : n ≤ b.size) : Block.Apart ⟨b.start, n⟩ c := by
  unfold Block.Apart Block.stop at *
  simp only
  omega

theorem Apart.remainder (h : b.Apart c) (hpos : 0 < n) (hn : n < b.size) :
    Block.Apart ⟨b.start + n, b.size - n⟩ c := by
  unfold Block.Apart Block.stop at *
  simp only
  omega

-- The two parts lie apart from each other.
theorem carve_apart (least : Nat) (hb : ∀ c ∈ bs, b.Apart c) (hpos : 0 < n) :
    ∀ c ∈ (carve least n b bs).2, (carve least n b bs).1.Apart c := by
  unfold carve
  split
  · refine release_apart ?_ fun c hc => Apart.part (hb c hc) (by omega)
    unfold Block.Apart Block.stop
    simp only
    omega
  · exact hb

-- And from whatever the block did.
theorem carve_others (least : Nat) (hb : b.Apart d) (hbs : ∀ c ∈ bs, d.Apart c) (hpos : 0 < n)
    (h : n ≤ b.size) :
    (carve least n b bs).1.Apart d ∧ ∀ c ∈ (carve least n b bs).2, d.Apart c := by
  unfold carve
  split
  · exact ⟨Apart.part hb h, release_apart (Apart.remainder hb hpos (by omega)).symm hbs⟩
  · exact ⟨hb, hbs⟩

variable {least : Nat}

theorem allocate_eq_none : allocate least n bs = none ↔ ∀ b ∈ bs, b.size < n := by
  simp [allocate]

theorem allocate_append (hsmall : ∀ c ∈ bs, c.size < n) (h : n ≤ b.size) :
    allocate least n (bs ++ b :: cs) = some (carve least n b (bs ++ cs)) := by
  have hbs : ∀ c ∈ bs, ¬(decide (n ≤ c.size) = true) := fun c hc => by
    have := hsmall c hc
    simp only [decide_eq_true_eq]
    omega
  have hfind : (bs ++ b :: cs).find? (fun b => n ≤ b.size) = some b := by
    rw [List.find?_append, List.find?_eq_none.mpr hbs, Option.none_or,
      List.find?_cons_of_pos (by simpa using h)]
  rw [allocate, hfind, List.eraseP_append_right _ hbs, List.eraseP_cons_of_pos (by simpa using h),
    Option.map_some]

-- Either no block is large enough or the first of them is found.
theorem allocate_cases (n : Nat) (bs : List Block) :
    (∀ b ∈ bs, b.size < n) ∨
      ∃ front b back, bs = front ++ b :: back ∧ (∀ c ∈ front, c.size < n) ∧ n ≤ b.size := by
  induction bs with
  | nil => exact .inl (by simp)
  | cons b rest ih =>
      rcases Nat.lt_or_ge b.size n with hlt | hge
      · rcases ih with hnone | ⟨front, c, back, rfl, hfront, hc⟩
        · exact .inl (List.forall_mem_cons.mpr ⟨hlt, hnone⟩)
        · exact .inr ⟨b :: front, c, back, rfl, List.forall_mem_cons.mpr ⟨hlt, hfront⟩, hc⟩
      · exact .inr ⟨[], b, rest, rfl, by simp, hge⟩

end Allocate

end FreeList
