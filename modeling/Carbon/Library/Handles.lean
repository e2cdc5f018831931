import Mathlib.Data.List.Basic

-- Numbered resources along a trace: each is created, used while it lives and
-- deleted once.
namespace Handles

structure Kinds (ε : Type) where
  creates : ε → Option Nat
  uses : ε → List Nat
  deletes : ε → Option Nat

inductive Life
  | fresh
  | live
  | gone
  deriving DecidableEq

variable {ε : Type} (K : Kinds ε)

-- The life of resource n after an event, none if the event does not fit it.
def Life.next (n : Nat) (life : Life) (e : ε) : Option Life :=
  if K.creates e = some n then (if life = .fresh then some .live else none)
  else if K.deletes e = some n then (if life = .live then some .gone else none)
  else if n ∈ K.uses e then (if life = .live then some .live else none)
  else some life

def lifeAfter (n : Nat) (events : List ε) : Option Life := events.foldlM (Life.next K n) .fresh

variable {K} {events : List ε} {live live' : Nat → Prop} {next : Nat} {e : ε}

theorem lifeAfter_append_singleton (n : Nat) (e : ε) :
    lifeAfter K n (events ++ [e]) = (lifeAfter K n events).bind fun life => life.next K n e := by
  unfold lifeAfter
  rw [List.foldlM_append]
  cases events.foldlM (Life.next K n) .fresh <;> simp

-- The trace fits every resource; `live` are those that live after it, and the
-- next one to be created is `next`.
structure Holds (K : Kinds ε) (events : List ε) (live : Nat → Prop) (next : Nat) : Prop where
  living : ∀ n, live n → n < next ∧ lifeAfter K n events = some .live
  deleted : ∀ n, n < next → ¬live n → lifeAfter K n events = some .gone
  coming : ∀ n, next ≤ n → lifeAfter K n events = some .fresh

theorem holds_nil : Holds K ([] : List ε) (fun _ => False) 0 :=
  ⟨fun _ h => h.elim, fun _ h => absurd h (Nat.not_lt_zero _), fun _ _ => rfl⟩

theorem Holds.congr (h : Holds K events live next) (hlive : ∀ n, live' n ↔ live n) :
    Holds K events live' next :=
  ⟨fun n hn => h.living n ((hlive n).mp hn), fun n hlt hn => h.deleted n hlt fun hl => hn ((hlive n).mpr hl),
    h.coming⟩

-- An event that uses living resources only changes none of them.
theorem Holds.use (h : Holds K events live next) (hcreates : K.creates e = none)
    (hdeletes : K.deletes e = none) (huses : ∀ n ∈ K.uses e, live n) :
    Holds K (events ++ [e]) live next := by
  have hkeep : ∀ n life, lifeAfter K n events = some life → (n ∈ K.uses e → life = .live) →
      lifeAfter K n (events ++ [e]) = some life := by
    intro n life hlife hused
    rw [lifeAfter_append_singleton, hlife, Option.bind_some, Life.next, hcreates, hdeletes,
      if_neg (by simp), if_neg (by simp)]
    split
    · rw [if_pos (hused ‹_›), hused ‹_›]
    · rfl
  refine ⟨fun n hn => ⟨(h.living n hn).1, hkeep n _ (h.living n hn).2 fun _ => rfl⟩,
    fun n hlt hn => hkeep n _ (h.deleted n hlt hn) fun hu => absurd (huses n hu) hn,
    fun n hle => hkeep n _ (h.coming n hle) fun hu => ?_⟩
  have hlt := (h.living n (huses n hu)).1
  omega

theorem Holds.uses {more : List ε} (h : Holds K events live next)
    (hmore : ∀ e ∈ more, K.creates e = none ∧ K.deletes e = none ∧ ∀ n ∈ K.uses e, live n) :
    Holds K (events ++ more) live next := by
  induction more generalizing events with
  | nil => rwa [List.append_nil]
  | cons e more ih =>
      obtain ⟨hcreates, hdeletes, huses⟩ := hmore e (List.mem_cons_self ..)
      rw [← List.singleton_append, ← List.append_assoc]
      exact ih (h.use hcreates hdeletes huses) fun e he => hmore e (List.mem_cons_of_mem _ he)

theorem Holds.create (h : Holds K events live next) (hcreates : K.creates e = some next)
    (hdeletes : K.deletes e = none) (huses : ∀ n ∈ K.uses e, live n) :
    Holds K (events ++ [e]) (fun n => n = next ∨ live n) (next + 1) := by
  have hkeep : ∀ n life, n ≠ next → lifeAfter K n events = some life → (n ∈ K.uses e → life = .live) →
      lifeAfter K n (events ++ [e]) = some life := by
    intro n life hne hlife hused
    rw [lifeAfter_append_singleton, hlife, Option.bind_some, Life.next, hcreates, hdeletes,
      if_neg (fun heq => hne (Option.some.inj heq).symm), if_neg (by simp)]
    split
    · rw [if_pos (hused ‹_›), hused ‹_›]
    · rfl
  refine ⟨fun n hn => ?_, fun n hlt hn => ?_, fun n hle => ?_⟩
  · rcases hn with rfl | hn
    · rw [lifeAfter_append_singleton, h.coming n (Nat.le_refl _), Option.bind_some, Life.next, hcreates]
      exact ⟨Nat.lt_succ_self _, by simp⟩
    · have hliving := h.living n hn
      exact ⟨by omega, hkeep n _ (by omega) hliving.2 fun _ => rfl⟩
  · have hne : n ≠ next := fun heq => hn (.inl heq)
    exact hkeep n _ hne (h.deleted n (by omega) fun hl => hn (.inr hl))
      fun hu => absurd (huses n hu) fun hl => hn (.inr hl)
  · refine hkeep n _ (by omega) (h.coming n (by omega)) fun hu => ?_
    have hlt := (h.living n (huses n hu)).1
    omega

theorem Holds.delete {conn : Nat} (h : Holds K events live next) (hcreates : K.creates e = none)
    (hdeletes : K.deletes e = some conn) (huses : K.uses e = []) (hconn : live conn) :
    Holds K (events ++ [e]) (fun n => live n ∧ n ≠ conn) next := by
  have hkeep : ∀ n life, n ≠ conn → lifeAfter K n events = some life →
      lifeAfter K n (events ++ [e]) = some life := by
    intro n life hne hlife
    rw [lifeAfter_append_singleton, hlife, Option.bind_some, Life.next, hcreates, hdeletes, huses,
      if_neg (by simp), if_neg (fun heq => hne (Option.some.inj heq).symm), if_neg List.not_mem_nil]
  refine ⟨fun n hn => ⟨(h.living n hn.1).1, hkeep n _ hn.2 (h.living n hn.1).2⟩, fun n hlt hn => ?_,
    fun n hle => hkeep n _ ?_ (h.coming n hle)⟩
  · by_cases heq : n = conn
    · subst heq
      rw [lifeAfter_append_singleton, (h.living n hconn).2, Option.bind_some, Life.next, hcreates, hdeletes]
      simp
    · exact hkeep n _ heq (h.deleted n hlt fun hl => hn ⟨hl, heq⟩)
  · have hlt := (h.living conn hconn).1
    omega

end Handles
