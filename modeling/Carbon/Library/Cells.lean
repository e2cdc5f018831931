import Mathlib.Data.Nat.Basic

namespace Cells

variable {α : Type}

-- Numbered cells: a memory by its bytes, a disk by its sectors.
def write (cells : Nat → α) (start : Nat) (values : List α) : Nat → α := fun i =>
  if i < start then cells i else (values[i - start]?).getD (cells i)

def read (cells : Nat → α) (start count : Nat) : List α :=
  (List.range count).map fun k => cells (start + k)

variable {cells other : Nat → α} {start count i : Nat} {values : List α}

@[simp] theorem length_read : (read cells start count).length = count := by
  simp [read]

theorem write_outside (h : i < start ∨ start + values.length ≤ i) :
    write cells start values i = cells i := by
  unfold write
  split
  · rfl
  · rw [List.getElem?_eq_none (by omega)]
    rfl

theorem write_inside {k : Nat} (h : k < values.length) :
    write cells start values (start + k) = values[k] := by
  unfold write
  rw [if_neg (by omega), Nat.add_sub_cancel_left, List.getElem?_eq_getElem h]
  rfl

@[simp] theorem write_nil : write cells start [] = cells := by
  funext i
  simp [write]

theorem write_append (xs ys : List α) :
    write cells start (xs ++ ys) = write (write cells start xs) (start + xs.length) ys := by
  funext i
  rcases Nat.lt_or_ge i (start + xs.length) with hlt | hge
  · rw [write_outside (.inl hlt)]
    unfold write
    split
    · rfl
    · rw [List.getElem?_append_left (by omega)]
  · rw [show i = start + xs.length + (i - (start + xs.length)) by omega]
    generalize i - (start + xs.length) = k
    rcases Nat.lt_or_ge k ys.length with hk | hk
    · rw [write_inside hk, Nat.add_assoc, write_inside (by rw [List.length_append]; omega),
        List.getElem_append_right (by omega)]
      simp only [Nat.add_sub_cancel_left]
    · rw [write_outside (.inr (by rw [List.length_append]; omega)), write_outside (.inr (by omega)),
        write_outside (.inr (by omega))]

-- A later write of the same extent hides an earlier one.
theorem write_write {xs ys : List α} (h : xs.length ≤ ys.length) :
    write (write cells start xs) start ys = write cells start ys := by
  funext i
  rcases Nat.lt_or_ge i (start + ys.length) with hlt | hge
  · rcases Nat.lt_or_ge i start with hbefore | hinside
    · rw [write_outside (.inl hbefore), write_outside (.inl hbefore), write_outside (.inl hbefore)]
    · obtain ⟨k, rfl⟩ := Nat.exists_eq_add_of_le hinside
      rw [write_inside (by omega), write_inside (by omega)]
  · rw [write_outside (.inr hge), write_outside (.inr hge), write_outside (.inr (by omega))]

theorem read_congr (h : ∀ k < count, cells (start + k) = other (start + k)) :
    read cells start count = read other start count :=
  List.map_congr_left fun k hk => h k (List.mem_range.mp hk)

theorem read_add (m n : Nat) :
    read cells start (m + n) = read cells start m ++ read cells (start + m) n := by
  unfold read
  rw [List.range_add, List.map_append, List.map_map]
  refine congrArg _ (List.map_congr_left fun k _ => ?_)
  simp only [Function.comp_apply, Nat.add_assoc]

-- Cells hold one text behind another.
theorem read_eq_append {xs ys : List α} :
    read cells start (xs ++ ys).length = xs ++ ys ↔
      read cells start xs.length = xs ∧ read cells (start + xs.length) ys.length = ys := by
  rw [List.length_append, read_add]
  constructor
  · intro h
    exact List.append_inj h length_read
  · rintro ⟨hx, hy⟩
    rw [hx, hy]

theorem getElem_of_read (h : read cells start values.length = values) {k : Nat} (hk : k < values.length) :
    cells (start + k) = values[k] := by
  have hget : (read cells start values.length)[k]? = some values[k] := by
    rw [h, List.getElem?_eq_getElem hk]
  rw [read, List.getElem?_map, List.getElem?_range hk, Option.map_some] at hget
  exact Option.some.inj hget

theorem head_of_read (h : read cells start values.length = values) {value : α} (hhead : values.head? = some value) :
    cells start = value := by
  obtain ⟨rest, rfl⟩ : ∃ rest, values = value :: rest := by
    cases values with
    | nil => cases hhead
    | cons x rest => cases hhead; exact ⟨rest, rfl⟩
  exact getElem_of_read h (Nat.succ_pos rest.length)

theorem read_write : read (write cells start values) start values.length = values := by
  apply List.ext_getElem (by simp)
  intro k hk hk'
  simp only [read, List.getElem_map, List.getElem_range]
  exact write_inside hk'

theorem read_write_apart {from' : Nat}
    (h : start + values.length ≤ from' ∨ from' + count ≤ start) :
    read (write cells start values) from' count = read cells from' count :=
  read_congr fun k hk => write_outside (by omega)

end Cells
