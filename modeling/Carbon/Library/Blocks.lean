import Mathlib.Data.List.Basic

-- Data cut into blocks of a fixed size as it arrives, and blocks that are passed on
-- one after the other until one of them fails.
namespace Blocks

variable {α : Type} {n : Nat} {front back data : List α}

-- The complete blocks, and what is left behind the last of them.
def blocks (n : Nat) (data : List α) : List (List α) :=
  if 0 < n ∧ n ≤ data.length then data.take n :: blocks n (data.drop n) else []
termination_by data.length
decreasing_by rw [List.length_drop]; omega

def rest (n : Nat) (data : List α) : List α :=
  if 0 < n ∧ n ≤ data.length then rest n (data.drop n) else data
termination_by data.length
decreasing_by rw [List.length_drop]; omega

theorem blocks_short (h : data.length < n) : blocks n data = [] := by
  rw [blocks, if_neg (by omega)]

theorem rest_short (h : data.length < n) : rest n data = data := by
  rw [rest, if_neg (by omega)]

theorem blocks_block (hn : 0 < n) (h : front.length = n) : blocks n (front ++ back) = front :: blocks n back := by
  rw [blocks, if_pos ⟨hn, by rw [List.length_append]; omega⟩, List.take_left' h, List.drop_left' h]

theorem rest_block (hn : 0 < n) (h : front.length = n) : rest n (front ++ back) = rest n back := by
  rw [rest, if_pos ⟨hn, by rw [List.length_append]; omega⟩, List.drop_left' h]

-- Data is short or a block in front of other data.
theorem block_induction {P : List α → Prop} (hn : 0 < n) (short : ∀ data, data.length < n → P data)
    (block : ∀ front back, front.length = n → P back → P (front ++ back)) (data : List α) : P data := by
  induction hk : data.length using Nat.strongRecOn generalizing data with
  | _ k ih =>
      rcases Nat.lt_or_ge data.length n with hlt | hge
      · exact short data hlt
      · rw [← List.take_append_drop n data]
        exact block _ _ (List.length_take_of_le hge) (ih _ (by rw [List.length_drop]; omega) _ rfl)

theorem rest_length (hn : 0 < n) (data : List α) : (rest n data).length < n := by
  induction data using block_induction hn with
  | short data h => rwa [rest_short h]
  | block front back h ih => rwa [rest_block hn h]

theorem blocks_append (hn : 0 < n) (front back : List α) :
    blocks n (front ++ back) = blocks n front ++ blocks n (rest n front ++ back) := by
  induction front using block_induction hn with
  | short front h => rw [blocks_short h, rest_short h, List.nil_append]
  | block first more h ih =>
      rw [List.append_assoc, blocks_block hn h, blocks_block hn h, rest_block hn h, ih, List.cons_append]

theorem rest_append (hn : 0 < n) (front back : List α) : rest n (front ++ back) = rest n (rest n front ++ back) := by
  induction front using block_induction hn with
  | short front h => rw [rest_short h]
  | block first more h ih => rw [List.append_assoc, rest_block hn h, rest_block hn h, ih]

theorem flatten_blocks (hn : 0 < n) (data : List α) : (blocks n data).flatten ++ rest n data = data := by
  induction data using block_induction hn with
  | short data h => rw [blocks_short h, rest_short h, List.flatten_nil, List.nil_append]
  | block front back h ih => rw [blocks_block hn h, rest_block hn h, List.flatten_cons, List.append_assoc, ih]

-- The blocks with the rest as the last, shorter one.
def chunks (n : Nat) (data : List α) : List (List α) :=
  blocks n data ++ if rest n data = [] then [] else [rest n data]

theorem flatten_chunks (hn : 0 < n) (data : List α) : (chunks n data).flatten = data := by
  have hflatten := flatten_blocks hn data
  unfold chunks
  split
  · rename_i hnil
    rwa [hnil, List.append_nil, ← List.append_nil (blocks n data)] at hflatten
  · rw [List.flatten_append, List.flatten_singleton]
    exact hflatten

theorem blocks_length (hn : 0 < n) (data : List α) : ∀ block ∈ blocks n data, block.length = n := by
  induction data using block_induction hn with
  | short data h => simp [blocks_short h]
  | block front back h ih =>
      rw [blocks_block hn h]
      exact List.forall_mem_cons.mpr ⟨h, ih⟩

theorem chunks_length (hn : 0 < n) (data : List α) : ∀ chunk ∈ chunks n data, chunk.length ≤ n := by
  intro chunk hchunk
  rcases List.mem_append.mp hchunk with hblock | hrest
  · exact Nat.le_of_eq (blocks_length hn data chunk hblock)
  · split at hrest
    · cases hrest
    · obtain rfl := List.mem_singleton.mp hrest
      exact Nat.le_of_lt (rest_length hn data)

-- What is attempted, the failing one included. `fails k` is the result of attempt k.
def attempted (fails : Nat → Bool) (k : Nat) : List α → List α
  | [] => []
  | b :: bs => b :: if fails k then [] else attempted fails (k + 1) bs

def stops (fails : Nat → Bool) (k : Nat) : List α → Bool
  | [] => false
  | _ :: bs => fails k || stops fails (k + 1) bs

variable {fails : Nat → Bool} {k : Nat}

theorem attempted_append (bs cs : List α) :
    attempted fails k (bs ++ cs) =
      attempted fails k bs ++ if stops fails k bs then [] else attempted fails (k + bs.length) cs := by
  induction bs generalizing k with
  | nil => simp [attempted, stops]
  | cons b bs ih =>
      rw [List.cons_append, attempted, attempted, stops, List.length_cons, List.cons_append]
      cases hfails : fails k
      · simp only [Bool.false_eq_true, if_false, Bool.false_or]
        rw [ih, Nat.add_right_comm, Nat.add_assoc]
      · simp

theorem stops_append (bs cs : List α) :
    stops fails k (bs ++ cs) = (stops fails k bs || stops fails (k + bs.length) cs) := by
  induction bs generalizing k with
  | nil => simp [stops]
  | cons b bs ih =>
      rw [List.cons_append, stops, stops, ih, List.length_cons, Bool.or_assoc, Nat.add_right_comm, Nat.add_assoc]

theorem attempted_all {bs : List α} (h : ∀ i < bs.length, fails (k + i) = false) : attempted fails k bs = bs := by
  induction bs generalizing k with
  | nil => rfl
  | cons b bs ih =>
      have hhead : fails k = false := h 0 (by simp)
      rw [attempted, hhead, ih fun i hi => by rw [Nat.add_assoc, Nat.add_comm 1]; exact h (i + 1) (by simpa using hi)]
      rfl

end Blocks
