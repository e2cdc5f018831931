import Mathlib.Data.List.Infix

namespace Reservation

variable {α : Type}

-- The history of a bounded queue in which an entry is first reserved and later
-- committed. Entries are numbered in reservation order. The object of an entry
-- is none as long as nothing fixes it.
structure Log (α : Type) where
  reserved : Nat
  object : Nat → Option α
  committed : Nat → Bool
  delivered : List α

namespace Log

def empty : Log α := ⟨0, fun _ => none, fun _ => false, []⟩

-- The number of entries reserved and not yet delivered.
def inUse (l : Log α) : Nat := l.reserved - l.delivered.length

def accepted (l : Log α) : List (Option α) := (List.range l.reserved).map l.object

-- The number of committed entries in front of the first one that is not.
def committedRun (l : Log α) : Nat :=
  ((List.range' l.delivered.length l.inUse).takeWhile fun i => l.committed i).length

def reserve (l : Log α) (count : Nat) : Log α := { l with reserved := l.reserved + count }

def promise (l : Log α) (object : α) : Log α :=
  { l with reserved := l.reserved + 1, object := Function.update l.object l.reserved (some object) }

def commit (l : Log α) (low count : Nat) (content : Nat → α) : Log α :=
  { l with
    object := fun i => if low ≤ i ∧ i < low + count then some (content i) else l.object i
    committed := fun i => decide (low ≤ i ∧ i < low + count) || l.committed i }

def deliver (l : Log α) (values : List α) : Log α := { l with delivered := l.delivered ++ values }

theorem commit_inside (l : Log α) {low count i : Nat} (content : Nat → α)
    (hi : low ≤ i ∧ i < low + count) :
    (l.commit low count content).object i = some (content i) ∧
      (l.commit low count content).committed i = true := by
  simp [commit, hi]

theorem commit_outside (l : Log α) {low count i : Nat} (content : Nat → α)
    (hi : ¬(low ≤ i ∧ i < low + count)) :
    (l.commit low count content).object i = l.object i ∧
      (l.commit low count content).committed i = l.committed i := by
  simp only [commit, hi, ite_false, decide_false, Bool.false_or, and_self]

-- What the queue is for. Reservations are accepted as long as they fit, a
-- commit keeps what was promised, and only committed entries are delivered,
-- in order.
inductive Step (capacity : Nat) : Log α → Log α → Prop
  | reserve {l : Log α} {count : Nat} : l.inUse + count ≤ capacity → Step capacity l (l.reserve count)
  | promise {l : Log α} {object : α} : l.inUse + 1 ≤ capacity → Step capacity l (l.promise object)
  | commit {l : Log α} {low count : Nat} {content : Nat → α} :
      (∀ i, low ≤ i → i < low + count → i < l.reserved ∧ l.committed i = false ∧
        ∀ object, l.object i = some object → content i = object) →
      Step capacity l (l.commit low count content)
  | deliver {l : Log α} {values : List α} :
      (∀ k, (hk : k < values.length) → l.committed (l.delivered.length + k) = true ∧
        l.object (l.delivered.length + k) = some values[k]) →
      Step capacity l (l.deliver values)

structure Sound (capacity : Nat) (l : Log α) : Prop where
  delivered_le : l.delivered.length ≤ l.reserved
  bounded : l.reserved ≤ l.delivered.length + capacity
  open_end : ∀ i, l.reserved ≤ i → l.object i = none ∧ l.committed i = false
  committed : ∀ i, l.committed i = true → (l.object i).isSome
  delivered : ∀ i, (hi : i < l.delivered.length) →
    l.committed i = true ∧ l.object i = some l.delivered[i]

variable {capacity : Nat} {l m : Log α}

theorem Sound.committed_lt (h : Sound capacity l) {i : Nat} (hi : l.committed i = true) :
    i < l.reserved := by
  by_contra hn
  have hopen := (h.open_end i (by omega)).2
  rw [hi] at hopen
  cases hopen

theorem sound_empty (capacity : Nat) : Sound capacity (empty : Log α) where
  delivered_le := Nat.le_refl 0
  bounded := Nat.zero_le _
  open_end := fun _ _ => ⟨rfl, rfl⟩
  committed := by intro i hi; cases hi
  delivered := by intro i hi; cases hi

theorem Sound.reserve (h : Sound capacity l) {count : Nat} (hfit : l.inUse + count ≤ capacity) :
    Sound capacity (l.reserve count) where
  delivered_le := Nat.le_add_right_of_le h.delivered_le
  bounded := by
    have hle := h.delivered_le
    unfold inUse at hfit
    simp only [Log.reserve]
    omega
  open_end := fun i hi => h.open_end i (by simp only [Log.reserve] at hi; omega)
  committed := h.committed
  delivered := h.delivered

theorem Sound.promise (h : Sound capacity l) {object : α} (hfit : l.inUse + 1 ≤ capacity) :
    Sound capacity (l.promise object) where
  delivered_le := Nat.le_add_right_of_le h.delivered_le
  bounded := by
    have hle := h.delivered_le
    unfold inUse at hfit
    simp only [Log.promise]
    omega
  open_end := by
    intro i hi
    simp only [Log.promise] at hi ⊢
    have hne : i ≠ l.reserved := by omega
    simpa [hne] using h.open_end i (by omega)
  committed := by
    intro i hi
    have hlt := h.committed_lt hi
    have hne : i ≠ l.reserved := by omega
    simpa [Log.promise, hne] using h.committed i hi
  delivered := by
    intro i hi
    have hle := h.delivered_le
    simp only [Log.promise] at hi ⊢
    have hne : i ≠ l.reserved := by omega
    simpa [hne] using h.delivered i hi

theorem Sound.commit (h : Sound capacity l) {low count : Nat} {content : Nat → α}
    (hfree : ∀ i, low ≤ i → i < low + count → i < l.reserved ∧ l.committed i = false ∧
      ∀ object, l.object i = some object → content i = object) :
    Sound capacity (l.commit low count content) where
  delivered_le := h.delivered_le
  bounded := h.bounded
  open_end := by
    intro i hi
    have hout : ¬(low ≤ i ∧ i < low + count) := by
      rintro ⟨hl, hh⟩
      have hlt := (hfree i hl hh).1
      simp only [Log.commit] at hi
      omega
    obtain ⟨ho, hc⟩ := commit_outside l content hout
    rw [ho, hc]
    exact h.open_end i hi
  committed := by
    intro i hi
    by_cases hin : low ≤ i ∧ i < low + count
    · rw [(commit_inside l content hin).1]; rfl
    · obtain ⟨ho, hc⟩ := commit_outside l content hin
      rw [hc] at hi
      rw [ho]
      exact h.committed i hi
  delivered := by
    intro i hi
    obtain ⟨hc, ho⟩ := h.delivered i hi
    have hout : ¬(low ≤ i ∧ i < low + count) := by
      rintro ⟨hl, hh⟩
      rw [(hfree i hl hh).2.1] at hc
      cases hc
    obtain ⟨ho', hc'⟩ := commit_outside l content hout
    rw [ho', hc']
    exact ⟨hc, ho⟩

theorem Sound.deliver (h : Sound capacity l) {values : List α}
    (hready : ∀ k, (hk : k < values.length) → l.committed (l.delivered.length + k) = true ∧
      l.object (l.delivered.length + k) = some values[k]) :
    Sound capacity (l.deliver values) where
  delivered_le := by
    simp only [Log.deliver, List.length_append]
    rcases Nat.eq_zero_or_pos values.length with h0 | hpos
    · rw [h0]; exact h.delivered_le
    · have hlast := h.committed_lt (hready (values.length - 1) (by omega)).1
      omega
  bounded := by
    have hb := h.bounded
    simp only [Log.deliver, List.length_append]
    omega
  open_end := h.open_end
  committed := h.committed
  delivered := by
    intro i hi
    by_cases hold : i < l.delivered.length
    · simpa [Log.deliver, List.getElem_append_left hold] using h.delivered i hold
    · obtain ⟨k, rfl⟩ := Nat.exists_eq_add_of_le (Nat.le_of_not_lt hold)
      have hk : k < values.length := by
        simp only [Log.deliver, List.length_append] at hi
        omega
      simpa [Log.deliver, List.getElem_append_right (Nat.le_add_right _ k)] using hready k hk

theorem Sound.step (h : Sound capacity l) (hstep : Step capacity l m) : Sound capacity m := by
  cases hstep with
  | reserve hfit => exact h.reserve hfit
  | promise hfit => exact h.promise hfit
  | commit hfree => exact h.commit hfree
  | deliver hready => exact h.deliver hready

-- Nothing is lost, repeated or reordered.
theorem Sound.delivered_initial (h : Sound capacity l) :
    l.delivered.map some <+: l.accepted := by
  rw [List.prefix_iff_eq_take]
  apply List.ext_getElem
  · simp [accepted, h.delivered_le]
  · intro i hi _
    have hlt : i < l.delivered.length := by simpa using hi
    simp [accepted, (h.delivered i hlt).2]

-- What is known about an entry stays as it is.
theorem Step.object_stable (h : Sound capacity l) (hstep : Step capacity l m) {i : Nat} {object : α}
    (hi : l.object i = some object) : m.object i = some object := by
  cases hstep with
  | reserve => exact hi
  | promise =>
      have hne : i ≠ l.reserved := by
        rintro rfl
        rw [(h.open_end _ (Nat.le_refl _)).1] at hi
        cases hi
      simpa [Log.promise, hne] using hi
  | @commit low count content hfree =>
      by_cases hin : low ≤ i ∧ i < low + count
      · rw [(commit_inside l content hin).1, (hfree i hin.1 hin.2).2.2 object hi]
      · rw [(commit_outside l content hin).1]; exact hi
  | deliver => exact hi

-- Any bound that is met exactly up to the first entry that is not committed
-- is the committed run.
theorem committedRun_eq {count : Nat} (hcount : count ≤ l.inUse)
    (hrun : ∀ k < count, l.committed (l.delivered.length + k) = true)
    (hstop : count < l.inUse → l.committed (l.delivered.length + count) = false) :
    l.committedRun = count := by
  unfold committedRun
  obtain ⟨rest, hrest⟩ := Nat.exists_eq_add_of_le hcount
  have hsplit : List.range' l.delivered.length l.inUse =
      List.range' l.delivered.length count ++ List.range' (l.delivered.length + count) rest := by
    rw [hrest, ← List.range'_append_1]
  rw [hsplit, List.takeWhile_append_of_pos]
  · cases rest with
    | zero => simp
    | succ rest =>
        have hfalse := hstop (by omega)
        simp [List.range'_succ, hfalse]
  · intro i hi
    obtain ⟨k, hk, rfl⟩ := List.mem_range'.mp hi
    simpa using hrun k hk

end Log

end Reservation
