import Mathlib.Data.List.DropRight
import Mathlib.Data.List.Infix
import Mathlib.Data.List.Chain

-- Directories as lists of names and their paths: every name behind a
-- separator, and the separator alone for the root.
namespace SegmentPath

variable {α : Type} (sep : α)

def Name (name : List α) : Prop := name ≠ [] ∧ sep ∉ name

def Names (dir : List (List α)) : Prop := ∀ name ∈ dir, Name sep name

def join (dir : List (List α)) : List α := dir.flatMap (sep :: ·)

def render (dir : List (List α)) : List α := if dir = [] then [sep] else join sep dir

variable {sep} {dir other : List (List α)} {name : List α}

@[simp] theorem join_nil : join sep [] = [] := rfl

@[simp] theorem join_append : join sep (dir ++ other) = join sep dir ++ join sep other := List.flatMap_append

@[simp] theorem join_singleton : join sep [name] = sep :: name := by
  simp [join]

theorem render_of_ne_nil (h : dir ≠ []) : render sep dir = join sep dir := if_neg h

@[simp] theorem render_nil : render sep [] = [sep] := rfl

theorem render_append_singleton : render sep (dir ++ [name]) = join sep dir ++ sep :: name := by
  rw [render_of_ne_nil (by simp), join_append, join_singleton]

theorem Names.append (h : Names sep dir) (h' : Names sep other) : Names sep (dir ++ other) := by
  intro name hname
  rcases List.mem_append.mp hname with hleft | hright
  · exact h name hleft
  · exact h' name hright

theorem Names.dropLast (h : Names sep dir) : Names sep dir.dropLast :=
  fun name hname => h name (List.dropLast_subset _ hname)

theorem Names.nil : Names sep ([] : List (List α)) := fun _ h => absurd h List.not_mem_nil

variable [DecidableEq α]

-- The names of a text, however many separators stand between them.
variable (sep) in
def names (text : List α) : List (List α) := (text.splitOn sep).filter fun name => !name.isEmpty

@[simp] theorem names_nil : names sep [] = [] := by
  simp [names]

theorem names_append (text rest : List α) :
    names sep (text ++ sep :: rest) = names sep text ++ names sep rest := by
  simp [names, List.splitOn_append_cons_self]

@[simp] theorem names_cons (text : List α) : names sep (sep :: text) = names sep text := by
  have happend : names sep ([] ++ sep :: text) = names sep [] ++ names sep text := names_append [] text
  simpa using happend

theorem names_name (h : Name sep name) : names sep name = [name] := by
  simp [names, List.splitOn_eq_singleton h.2, h.1]

theorem not_mem_of_mem_splitOn {text : List α} (h : name ∈ text.splitOn sep) : sep ∉ name := by
  induction text generalizing name with
  | nil =>
      rw [List.splitOn_nil, List.mem_singleton] at h
      rw [h]
      exact List.not_mem_nil
  | cons x text ih =>
      rw [List.splitOn_cons_eq_if_modifyHead] at h
      split at h
      · rcases List.mem_cons.mp h with rfl | hrest
        · exact List.not_mem_nil
        · exact ih hrest
      · rename_i hx
        obtain ⟨first, rest, hsplit⟩ := List.exists_cons_of_ne_nil (List.splitOn_ne_nil sep text)
        rw [hsplit] at h ih
        rw [List.modifyHead_cons] at h
        rcases List.mem_cons.mp h with rfl | hrest
        · intro hmem
          rcases List.mem_cons.mp hmem with heq | hmem
          · exact hx (by simp [heq])
          · exact ih (List.mem_cons_self ..) hmem
        · exact ih (List.mem_cons_of_mem _ hrest)

theorem names_names (text : List α) : Names sep (names sep text) := by
  intro name hname
  obtain ⟨hmem, hnonempty⟩ := List.mem_filter.mp hname
  exact ⟨by simpa using hnonempty, not_mem_of_mem_splitOn hmem⟩

-- No two separators stand next to each other.
variable (sep) in
def Proper (text : List α) : Prop := text.IsChain fun a b => ¬(a = sep ∧ b = sep)

instance (text : List α) : Decidable (Proper sep text) :=
  inferInstanceAs (Decidable (text.IsChain fun a b => ¬(a = sep ∧ b = sep)))

omit [DecidableEq α] in
theorem Proper.head_ne {text : List α} (h : Proper sep (sep :: text)) (hne : text ≠ []) :
    text.head? ≠ some sep := by
  cases text with
  | nil => exact absurd rfl hne
  | cons x text =>
      intro hx
      cases hx
      exact (List.isChain_cons_cons.mp h).1 ⟨rfl, rfl⟩

-- A proper text behind a separator is the path of its names, up to a separator
-- at its end.
theorem cons_eq_join {text : List α} (hproper : Proper sep (sep :: text)) (hne : text ≠ []) :
    sep :: text = join sep (names sep text) ∨ sep :: text = join sep (names sep text) ++ [sep] := by
  induction hlen : text.length using Nat.strong_induction_on generalizing text with
  | _ n ih =>
      by_cases hmem : sep ∈ text
      · obtain ⟨name, rest, rfl, hname⟩ := List.eq_append_cons_of_mem hmem
        have hnonempty : name ≠ [] := by
          rintro rfl
          exact hproper.head_ne hne rfl
        rw [names_append, names_name ⟨hnonempty, hname⟩, join_append, join_singleton]
        by_cases hrest : rest = []
        · subst hrest
          exact .inr (by simp)
        · have hsuffix : Proper sep (sep :: rest) :=
            (List.isChain_append.mp (show List.IsChain _ ((sep :: name) ++ sep :: rest) from hproper)).2.1
          rcases ih _ (by subst hlen; simp; omega) hsuffix hrest rfl with heq | heq
          · exact .inl (by rw [← heq]; rfl)
          · exact .inr (by rw [List.append_assoc, ← heq]; rfl)
      · rw [names_name ⟨hne, hmem⟩, join_singleton]
        exact .inl rfl

-- Stripping the last name of a path stops at the separator in front of it.
theorem rdropWhile_name (h : Name sep name) (front : List α) :
    (front ++ sep :: name).rdropWhile (· ≠ sep) = front ++ [sep] := by
  have hname : ∀ a ∈ name.reverse, decide (a ≠ sep) = true := fun a ha =>
    decide_eq_true fun heq => h.2 (heq ▸ List.mem_reverse.mp ha)
  rw [List.rdropWhile, List.reverse_append, List.reverse_cons, List.append_assoc,
    List.dropWhile_append_of_pos hname, List.singleton_append, List.dropWhile_cons_of_neg (by simp)]
  simp

omit [DecidableEq α] in
-- A path of names does not end with a separator.
theorem getLast?_join (h : Names sep dir) : (join sep dir).getLast? ≠ some sep := by
  induction dir using List.reverseRecOn with
  | nil => simp
  | append_singleton dir name _ =>
      obtain ⟨hne, hsep⟩ := h name (by simp)
      rw [join_append, join_singleton, List.getLast?_append_cons, List.getLast?_cons_of_ne_nil hne]
      intro hlast
      exact hsep (List.mem_of_getLast? hlast)

end SegmentPath
