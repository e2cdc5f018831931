import Mathlib.Data.List.Basic
import Mathlib.Logic.Function.Iterate

-- Programs that write to a sink one item after the other. A sink may drop
-- items and may count them; what a program can see of it is its view, which
-- moves on by one put whether the item is kept or not.
structure Sink (σ α π : Type) where
  put : σ → α → σ
  view : σ → π
  next : π → π
  view_put : ∀ s item, view (put s item) = next (view s)

namespace Sink

variable {σ α π β γ : Type} (K : Sink σ α π)

def puts (s : σ) (items : List α) : σ := items.foldl K.put s

@[simp] theorem puts_nil (s : σ) : K.puts s [] = s := rfl

@[simp] theorem puts_cons (s : σ) (item : α) (items : List α) :
    K.puts s (item :: items) = K.puts (K.put s item) items := rfl

theorem puts_append (s : σ) (xs ys : List α) : K.puts s (xs ++ ys) = K.puts (K.puts s xs) ys :=
  List.foldl_append

theorem view_puts (s : σ) (items : List α) : K.view (K.puts s items) = K.next^[items.length] (K.view s) := by
  induction items generalizing s with
  | nil => rfl
  | cons item items ih => rw [puts_cons, ih, K.view_put, List.length_cons, Function.iterate_succ_apply]

-- A part of a program that only puts items, the same ones on every sink it
-- sees in the same way.
def Appends (f : σ → σ) : Prop := ∀ v, ∃ items, ∀ s, K.view s = v → f s = K.puts s items

variable {K} {f g : σ → σ}

theorem Appends.puts (items : List α) : K.Appends fun s => K.puts s items :=
  fun _ => ⟨items, fun _ _ => rfl⟩

theorem Appends.id : K.Appends fun s => s := Appends.puts []

theorem Appends.put (item : α) : K.Appends fun s => K.put s item := Appends.puts [item]

theorem Appends.comp (hg : K.Appends g) (hf : K.Appends f) : K.Appends fun s => g (f s) := by
  intro v
  obtain ⟨xs, hxs⟩ := hf v
  obtain ⟨ys, hys⟩ := hg (K.next^[xs.length] v)
  refine ⟨xs ++ ys, fun s hs => ?_⟩
  simp only [hxs s hs, K.puts_append]
  exact hys _ (by rw [K.view_puts, hs])

theorem Appends.ite {p : Prop} [Decidable p] (hf : K.Appends f) (hg : K.Appends g) :
    K.Appends fun s => if p then f s else g s := by
  by_cases h : p
  · simpa only [h, if_true] using hf
  · simpa only [h, if_false] using hg

-- A test may look at the view.
theorem Appends.ite_view {p : π → Prop} [DecidablePred p] (hf : K.Appends f) (hg : K.Appends g) :
    K.Appends fun s => if p (K.view s) then f s else g s := by
  intro v
  by_cases h : p v
  · obtain ⟨items, hitems⟩ := hf v
    exact ⟨items, fun s hs => by simp only [hs, h, if_true, hitems s hs]⟩
  · obtain ⟨items, hitems⟩ := hg v
    exact ⟨items, fun s hs => by simp only [hs, h, if_false, hitems s hs]⟩

-- So may every later part, which then depends on where it started.
theorem Appends.seen {h : π → σ → σ} (hh : ∀ v, K.Appends (h v)) : K.Appends fun s => h (K.view s) s := by
  intro v
  obtain ⟨items, hitems⟩ := hh v v
  exact ⟨items, fun s hs => by simp only [hs, hitems s hs]⟩

variable (K)

-- What a whole program does on the sinks with view `v`: it is undefined, or it
-- puts the items and returns the value.
def Emits (f : σ → Option (σ × β)) (v : π) : Option (List α × β) → Prop
  | none => ∀ s, K.view s = v → f s = none
  | some (items, b) => ∀ s, K.view s = v → f s = some (K.puts s items, b)

-- The program never looks at a sink beyond its view.
def Oblivious (f : σ → Option (σ × β)) : Prop := ∀ v, ∃ r, K.Emits f v r

variable {K} {f : σ → Option (σ × β)}

theorem Oblivious.undefined : K.Oblivious (fun _ => (none : Option (σ × β))) :=
  fun _ => ⟨none, fun _ _ => rfl⟩

theorem Appends.oblivious {f : σ → σ} (hf : K.Appends f) (b : β) : K.Oblivious fun s => some (f s, b) := by
  intro v
  obtain ⟨items, hitems⟩ := hf v
  exact ⟨some (items, b), fun s hs => by simp only [hitems s hs]⟩

-- A value that depends on the view may be returned.
theorem Oblivious.seen (value : π → β) : K.Oblivious fun s => some (s, value (K.view s)) :=
  fun v => ⟨some ([], value v), fun s hs => by simp only [hs, puts_nil]⟩

theorem Oblivious.bind (hf : K.Oblivious f) {g : β → σ → Option (σ × γ)}
    (hg : ∀ b, K.Oblivious (g b)) : K.Oblivious fun s => (f s).bind fun r => g r.2 r.1 := by
  intro v
  obtain ⟨first, hfirst⟩ := hf v
  cases first with
  | none => exact ⟨none, fun s hs => by simp only [hfirst s hs, Option.bind_none]⟩
  | some first =>
      obtain ⟨items, b⟩ := first
      obtain ⟨second, hsecond⟩ := hg b (K.next^[items.length] v)
      have hview : ∀ s, K.view s = v → K.view (K.puts s items) = K.next^[items.length] v := by
        intro s hs
        rw [K.view_puts, hs]
      cases second with
      | none => exact ⟨none, fun s hs => by
          simp only [hfirst s hs, Option.bind_some]
          exact hsecond _ (hview s hs)⟩
      | some second =>
          refine ⟨some (items ++ second.1, second.2), fun s hs => ?_⟩
          simp only [hfirst s hs, Option.bind_some, K.puts_append]
          exact hsecond _ (hview s hs)

theorem Oblivious.map (hf : K.Oblivious f) (value : β → γ) :
    K.Oblivious fun s => (f s).map fun r => (r.1, value r.2) := by
  have hbind := hf.bind fun b => Appends.id.oblivious (value b)
  simpa only [Option.map_eq_bind, Function.comp_def] using hbind

-- Values that do not come from a sink.
theorem Oblivious.given (o : Option γ) {g : γ → σ → Option (σ × β)} (hg : ∀ c, K.Oblivious (g c)) :
    K.Oblivious fun s => o.bind fun c => g c s := by
  cases o with
  | none => exact Oblivious.undefined
  | some c => exact hg c

theorem Appends.given {f : γ → σ → σ} (hf : ∀ c, K.Appends (f c)) (o : Option γ) (value : γ → β) :
    K.Oblivious fun s => o.map fun c => (f c s, value c) := by
  cases o with
  | none => exact Oblivious.undefined
  | some c => exact (hf c).oblivious (value c)

theorem Oblivious.ite {p : Prop} [Decidable p] {g : σ → Option (σ × β)} (hf : K.Oblivious f)
    (hg : K.Oblivious g) : K.Oblivious fun s => if p then f s else g s := by
  by_cases h : p
  · simpa only [h, if_true] using hf
  · simpa only [h, if_false] using hg

-- Sinks that look alike get the same items from the program, or the program
-- is undefined on both.
theorem Oblivious.agree (hf : K.Oblivious f) (v : π) :
    (∀ s, K.view s = v → f s = none) ∨
      ∃ items b, ∀ s, K.view s = v → f s = some (K.puts s items, b) := by
  obtain ⟨r, hr⟩ := hf v
  cases r with
  | none => exact .inl hr
  | some r => exact .inr ⟨r.1, r.2, hr⟩

end Sink
