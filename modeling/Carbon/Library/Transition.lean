import Mathlib.Init

namespace Transition

-- A labelled transition system. A label resolves every choice of a step, so
-- the step itself is a partial function; none means the label is not enabled.
structure System (σ ε : Type) where
  initial : σ → Prop
  step : σ → ε → Option σ

namespace System

variable {σ ε τ δ : Type}

-- States of the runs in which every step satisfies `ok` in the state it
-- starts from.
inductive ReachableBy (M : System σ ε) (ok : σ → ε → Prop) : σ → Prop
  | start {s : σ} : M.initial s → ReachableBy M ok s
  | next {s t : σ} {e : ε} : ReachableBy M ok s → ok s e → M.step s e = some t → ReachableBy M ok t

abbrev Reachable (M : System σ ε) : σ → Prop := M.ReachableBy fun _ _ => True

def run (M : System σ ε) (s : σ) : List ε → Option σ
  | [] => some s
  | e :: rest => (M.step s e).bind fun t => run M t rest

variable {M : System σ ε} {ok ok' : σ → ε → Prop}

theorem ReachableBy.invariant {P : σ → Prop} (hinit : ∀ s, M.initial s → P s)
    (hstep : ∀ s e t, P s → ok s e → M.step s e = some t → P t)
    {s : σ} (hs : M.ReachableBy ok s) : P s := by
  induction hs with
  | start hi => exact hinit _ hi
  | next _ hok he ih => exact hstep _ _ _ ih hok he

theorem ReachableBy.mono (h : ∀ s e, ok s e → ok' s e) {s : σ} (hs : M.ReachableBy ok s) :
    M.ReachableBy ok' s := by
  induction hs with
  | start hi => exact .start hi
  | next _ hok he ih => exact .next ih (h _ _ hok) he

-- The stronger condition may rest on an invariant of the runs themselves.
theorem ReachableBy.strengthen {P : σ → Prop} (hP : ∀ s, M.ReachableBy ok s → P s)
    (h : ∀ s e, P s → ok s e → ok' s e) {s : σ} (hs : M.ReachableBy ok s) :
    M.ReachableBy ok' s := by
  induction hs with
  | start hi => exact .start hi
  | next hr hok he ih => exact .next ih (h _ _ (hP _ hr) hok) he

-- A map of states under which every step is a step of the other system or no
-- step at all carries runs to runs.
theorem ReachableBy.map {N : System τ δ} {good : τ → δ → Prop} (f : σ → τ)
    (hinit : ∀ s, M.initial s → N.initial (f s))
    (hstep : ∀ s e t, M.ReachableBy ok s → ok s e → M.step s e = some t →
      f t = f s ∨ ∃ d, good (f s) d ∧ N.step (f s) d = some (f t))
    {s : σ} (hs : M.ReachableBy ok s) : N.ReachableBy good (f s) := by
  induction hs with
  | start hi => exact .start (hinit _ hi)
  | next hr hok he ih =>
      rcases hstep _ _ _ hr hok he with hstay | ⟨d, hgood, hd⟩
      · rw [hstay]; exact ih
      · exact .next ih hgood hd

-- A run that checks the condition of every step on its way.
def runBy (M : System σ ε) (ok : σ → ε → Prop) [∀ s e, Decidable (ok s e)] (s : σ) :
    List ε → Option σ
  | [] => some s
  | e :: rest => if ok s e then (M.step s e).bind fun t => runBy M ok t rest else none

theorem ReachableBy.runBy [∀ s e, Decidable (ok s e)] {s t : σ} {labels : List ε}
    (hs : M.ReachableBy ok s) (hrun : M.runBy ok s labels = some t) : M.ReachableBy ok t := by
  induction labels generalizing s with
  | nil => cases hrun; exact hs
  | cons e rest ih =>
      unfold System.runBy at hrun
      split at hrun
      · rename_i hok
        obtain ⟨u, hu, hrest⟩ := Option.bind_eq_some_iff.mp hrun
        exact ih (.next hs hok hu) hrest
      · cases hrun

theorem ReachableBy.after [∀ s e, Decidable (ok s e)] {s : σ} (hs : M.ReachableBy ok s)
    (labels : List ε) (hrun : (M.runBy ok s labels).isSome) :
    M.ReachableBy ok ((M.runBy ok s labels).get hrun) :=
  hs.runBy (Option.some_get hrun).symm

theorem ReachableBy.get (M : System σ ε) (ok : σ → ε → Prop) [∀ s e, Decidable (ok s e)] {s : σ}
    (labels : List ε) (hinit : M.initial s) (hrun : (M.runBy ok s labels).isSome) :
    M.ReachableBy ok ((M.runBy ok s labels).get hrun) :=
  ReachableBy.after (.start hinit) labels hrun

theorem ReachableBy.run {s t : σ} {labels : List ε} (hs : M.Reachable s)
    (hrun : M.run s labels = some t) : M.Reachable t := by
  induction labels generalizing s with
  | nil => cases hrun; exact hs
  | cons e rest ih =>
      obtain ⟨u, hu, hrest⟩ := Option.bind_eq_some_iff.mp hrun
      exact ih (.next hs trivial hu) hrest

end System

end Transition
