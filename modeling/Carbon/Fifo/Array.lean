import Carbon.Fifo.Commit

namespace Carbon

namespace ContextPush

variable {α : Type} (g : Geometry)

-- The two ways to write through a context.
inductive Call (α : Type)
  | push (object : α)
  | pushArray (objects : List α)

def Call.objects : Call α → List α
  | .push object => [object]
  | .pushArray objects => objects

-- Round i of the padded push_array inserts what *(&object + i) points at: the
-- array for i = 0, behind the parameter for the others.
def pointee (objects : List α) (behind : Nat → α) : Nat → α
  | 0 => objects.headD (behind 0)
  | i + 1 => behind (i + 1)

def paddedRounds (tailReserved length : Nat) (object : Nat → α) :
    Nat → Nat → ContextPush → Option (Outcome α)
  | 0, _, _ => none
  | fuel + 1, i, c =>
      if arrayContinues tailReserved c i length then
        let round := insertOne g c (object i)
        if round.success then
          (paddedRounds tailReserved length object fuel (i + 1) round.context).map fun rest =>
            ⟨rest.success, rest.context, round.moved + rest.moved, round.inserts ++ rest.inserts⟩
        else some round
      else some ⟨true, c, 0, []⟩

def pushArrayPadded (tailReserved : Nat) (c : ContextPush) (objects : List α) (behind : Nat → α) :
    Option (Outcome α) :=
  if c.isOverflow then some ⟨false, c, 0, []⟩
  else paddedRounds g tailReserved objects.length (pointee objects behind)
    (objects.length + g.bufferSize + 1) 0 c

def perform (tailReserved : Nat) (c : ContextPush) (behind : Nat → α) : Call α → Option (Outcome α)
  | .push object => some (push g tailReserved c object)
  | .pushArray objects =>
      if g.packed then some (pushArray g c objects)
      else pushArrayPadded g tailReserved c objects behind

-- The slots from start on hold the objects in order.
def Holds (start : Nat) (objects : List α) (f : Fifo α) : Prop :=
  ∀ k (h : k < objects.length), f.buffer ((start + k) % g.bufferSize) = objects[k]

-- Every call succeeds, index_ moves by the number of its objects, and the slots
-- hold the objects of all calls so far. What lies behind the parameter may
-- differ from call to call.
def InOrder (behind : List (Call α) → Nat → α) (start : Nat) :
    List α → List (Call α) → Fifo α → ContextPush → Prop
  | written, [], f, _ => Holds g start written f
  | written, call :: rest, f, c => ∃ out,
      perform g f.tailReserved c (behind (call :: rest)) call = some out ∧ out.success = true ∧
        out.context.index = (start + (written ++ call.objects).length) % g.bufferSize ∧
        Holds g start (written ++ call.objects) (f.write out.inserts) ∧
        InOrder behind start (written ++ call.objects) rest (f.write out.inserts) out.context

-- The calls that move index_ by their length and store their objects, when the
-- shared tail stands `stop` slots behind the start. A packed array hands over
-- data_length1_ objects that end in front of slot N + 1 (or it ends at slot N
-- and the sum of index_ and data_length1_ is 2^32); a padded one reaches the
-- tail with at most one object.
def Call.Exact (start stop dataLength1 done : Nat) : Call α → Prop
  | .push _ => done ≠ stop
  | .pushArray objects =>
      let index := (start + done) % g.bufferSize
      if g.packed then
        objects.length ≤ dataLength1 ∧ index + objects.length ≤ g.bufferSize ∧
          (objects.length = dataLength1 ∨
            index + objects.length = g.bufferSize ∧ index + dataLength1 = 2 ^ 32)
      else objects.length ≤ 1 ∧ done + objects.length = stop

def ExactCalls (start stop dataLength1 : Nat) : Nat → List (Call α) → Prop
  | _, [] => True
  | done, call :: rest => call.Exact g start stop dataLength1 done ∧
      ExactCalls start stop dataLength1 (done + call.objects.length) rest

instance (start stop dataLength1 done : Nat) :
    DecidablePred (Call.Exact (α := α) g start stop dataLength1 done)
  | .push _ => inferInstanceAs (Decidable (done ≠ stop))
  | .pushArray objects => inferInstanceAs (Decidable (if g.packed then
      objects.length ≤ dataLength1 ∧ (start + done) % g.bufferSize + objects.length ≤ g.bufferSize ∧
        (objects.length = dataLength1 ∨
          (start + done) % g.bufferSize + objects.length = g.bufferSize ∧
            (start + done) % g.bufferSize + dataLength1 = 2 ^ 32)
    else objects.length ≤ 1 ∧ done + objects.length = stop))

variable {g}

theorem insertOne_eq {c : ContextPush} (hi : c.index ≤ g.nElements) (object : α) :
    insertOne g c object =
      ⟨true, { c with index := Fifo.increment g c.index }, 1, [⟨c.index, [object]⟩]⟩ := by
  unfold insertOne
  rw [if_pos (g.fits_of_le hi (by unfold Geometry.bufferSize; omega))]

theorem incrementBy_eq {index nIncrement : Nat} (hi : index ≤ g.nElements)
    (hn : nIncrement ≤ g.nElements) :
    Fifo.incrementBy g index nIncrement = (true, if index + nIncrement < 2 ^ 32 then
      (index + nIncrement) % g.bufferSize else index + nIncrement - 2 ^ 32) := by
  have hN := g.bufferSize_lt
  by_cases hsum : index + nIncrement < 2 ^ 32
  · have hmod := Fifo.incrementBy_mod g index hn
    rw [Nat.mod_eq_of_lt (show index < g.bufferSize from Nat.lt_succ_of_le hi)] at hmod
    rw [hmod hsum, if_pos hsum]
  · have hword : uint32 (index + nIncrement) = index + nIncrement - 2 ^ 32 := by
      unfold uint32 Geometry.bufferSize at *
      omega
    unfold Fifo.incrementBy
    rw [if_neg (by omega), hword, if_neg hsum, if_pos (by unfold Geometry.bufferSize at *; omega)]

-- The loop is left only with index_ at the shared tail.
theorem paddedRounds_index {tailReserved length : Nat} {object : Nat → α} {fuel i : Nat}
    {c : ContextPush} {out : Outcome α}
    (hout : paddedRounds g tailReserved length object fuel i c = some out) (hok : out.success = true) :
    out.context.index = tailReserved := by
  induction fuel generalizing i c out with
  | zero => cases hout
  | succ fuel ih =>
      unfold paddedRounds at hout
      split at hout
      · dsimp only at hout
        split at hout
        · obtain ⟨rest, hrest, rfl⟩ := Option.map_eq_some_iff.mp hout
          have hindex := ih hrest hok
          exact hindex
        · rename_i hround
          cases hout
          exact absurd hok hround
      · rename_i hstop
        cases hout
        unfold arrayContinues at hstop
        by_contra hne
        exact hstop (decide_eq_true (.inl hne))

-- With the shared tail one array behind index_ the loop makes one round for
-- each object.
theorem paddedRounds_full {tailReserved length a : Nat} {object : Nat → α}
    (htail : tailReserved = (a + length) % g.bufferSize) (count : Nat) {fuel i : Nat} {c : ContextPush}
    (hi : c.index = (a + i) % g.bufferSize) (hcount : i + count = length) (hfuel : count < fuel) :
    paddedRounds g tailReserved length object fuel i c =
      some ⟨true, { c with index := tailReserved }, count,
        (List.range' i count).map fun j => ⟨(a + j) % g.bufferSize, [object j]⟩⟩ := by
  induction count generalizing fuel i c with
  | zero =>
      obtain ⟨fuel, rfl⟩ := Nat.exists_eq_succ_of_ne_zero (Nat.ne_of_gt hfuel)
      have hstop : arrayContinues tailReserved c i length = false := by
        unfold arrayContinues
        rw [hi, htail, ← hcount]
        simp
      have hsame : { c with index := tailReserved } = c := by
        rw [htail, ← hcount, Nat.add_zero, ← hi]
      unfold paddedRounds
      rw [hstop, hsame]
      rfl
  | succ count ih =>
      obtain ⟨fuel, rfl⟩ := Nat.exists_eq_succ_of_ne_zero (Nat.ne_of_gt (Nat.zero_lt_of_lt hfuel))
      have hgo : arrayContinues tailReserved c i length = true := by
        unfold arrayContinues
        exact decide_eq_true (.inr (by omega))
      have hle : c.index ≤ g.nElements := by
        rw [hi]
        exact Nat.le_of_lt_succ (Nat.mod_lt _ (Nat.succ_pos _))
      have hnext : Fifo.increment g c.index = (a + (i + 1)) % g.bufferSize := by
        rw [hi, Fifo.increment_mod, Nat.add_assoc]
      have hrest := ih (c := { c with index := Fifo.increment g c.index }) hnext
        (by omega) (Nat.lt_of_succ_lt_succ hfuel)
      unfold paddedRounds
      rw [hgo, insertOne_eq hle]
      simp only [if_true]
      rw [hrest, Option.map_some, List.range'_succ, List.map_cons, Nat.add_comm 1 count, ← hi]
      rfl

-- The objects go into the slots that are `done` behind the start, and nothing
-- else changes.
def Stores (g : Geometry) (start done : Nat) (objects : List α) (f t : Fifo α) : Prop :=
  (∀ k (h : k < objects.length), t.buffer ((start + (done + k)) % g.bufferSize) = objects[k]) ∧
    ∀ slot, (∀ k < objects.length, slot ≠ (start + (done + k)) % g.bufferSize) →
      t.buffer slot = f.buffer slot

theorem stores_piece (start done : Nat) (objects : List α) (f : Fifo α)
    (hend : (start + done) % g.bufferSize + objects.length ≤ g.bufferSize) :
    Stores g start done objects f (f.write [⟨(start + done) % g.bufferSize, objects⟩]) := by
  have hslot : ∀ k < objects.length,
      (start + (done + k)) % g.bufferSize = (start + done) % g.bufferSize + k := by
    intro k hk
    rw [← Nat.add_assoc, ← Nat.mod_add_mod, Nat.mod_eq_of_lt (by omega)]
  refine ⟨fun k hk => ?_, fun slot hslots => ?_⟩
  · rw [hslot k hk]
    exact Insert.apply_add ⟨_, objects⟩ f.buffer k hk
  · apply Fifo.write_untouched
    intro insert hmem htouch
    obtain rfl := List.mem_singleton.mp hmem
    obtain ⟨hge, hlt⟩ := htouch
    dsimp only at hge hlt
    refine hslots (slot - (start + done) % g.bufferSize) (by omega) ?_
    rw [hslot _ (by omega)]
    omega

theorem stores_nil (start done : Nat) (f : Fifo α) : Stores g start done [] f (f.write []) :=
  ⟨fun k hk => absurd hk (Nat.not_lt_zero k), fun _ _ => rfl⟩

theorem pushArray_short {c : ContextPush} {objects : List α} (hover : c.isOverflow = false)
    (hle : objects.length ≤ c.dataLength1) (hfits : g.fits c.index objects.length = true) :
    pushArray g c objects =
      ⟨(Fifo.incrementBy g c.index c.dataLength1).1,
        { c with index := (Fifo.incrementBy g c.index c.dataLength1).2 },
        if (Fifo.incrementBy g c.index c.dataLength1).1 then c.dataLength1 else 0,
        [⟨c.index, objects⟩]⟩ := by
  unfold pushArray
  rw [hover, if_neg Bool.false_ne_true, if_pos hle, if_pos hfits]

variable {start stop done : Nat} {c : ContextPush}

-- The call stores its objects behind those that are done and leaves index_ behind
-- them.
def Call.Performs (g : Geometry) (start stop done : Nat) (c : ContextPush) (behind : Nat → α)
    (call : Call α) : Prop :=
  ∃ out, perform g ((start + stop) % g.bufferSize) c behind call = some out ∧ out.success = true ∧
    out.context = { c with index := (start + (done + call.objects.length)) % g.bufferSize } ∧
    ∀ f, Stores g start done call.objects f (f.write out.inserts)

theorem Call.Exact.performs_push {object : α}
    (h : (Call.push object).Exact g start stop c.dataLength1 done) (hover : c.isOverflow = false)
    (hindex : c.index = (start + done) % g.bufferSize) (hdone : done ≤ g.nElements)
    (hstop : stop ≤ g.nElements) (hle : c.index ≤ g.nElements) (behind : Nat → α) :
    (Call.push object).Performs g start stop done c behind := by
  have hne : c.index ≠ (start + stop) % g.bufferSize := by
    rw [hindex]
    intro heq
    have := Cyclic.window_inj g.bufferSize start (by omega) (by unfold Geometry.bufferSize; omega)
      (by omega) (by unfold Geometry.bufferSize; omega) heq
    exact h (by omega)
  refine ⟨⟨true, { c with index := Fifo.increment g c.index }, 1, [⟨c.index, [object]⟩]⟩, ?_, rfl, ?_,
    fun f => ?_⟩
  · unfold perform
    dsimp only
    unfold ContextPush.push
    rw [if_neg (ne_true_of_eq_false hover), if_pos hne, insertOne_eq hle]
  · rw [hindex, Fifo.increment_mod]
    rfl
  · rw [hindex]
    exact stores_piece _ _ _ f (Nat.mod_lt _ (Nat.succ_pos _))

theorem Call.Exact.performs_packed {objects : List α} (hpacked : g.packed = true)
    (h : (Call.pushArray objects).Exact g start stop c.dataLength1 done) (hover : c.isOverflow = false)
    (hindex : c.index = (start + done) % g.bufferSize) (hle : c.index ≤ g.nElements)
    (hlength : c.dataLength1 ≤ g.nElements) (behind : Nat → α) :
    (Call.pushArray objects).Performs g start stop done c behind := by
  unfold Call.Exact at h
  simp only [hpacked, if_true] at h
  obtain ⟨hshort, hend, hexact⟩ := h
  have hmoved : Fifo.incrementBy g c.index c.dataLength1 =
      (true, (start + (done + objects.length)) % g.bufferSize) := by
    have hnext : (start + (done + objects.length)) % g.bufferSize =
        (c.index + objects.length) % g.bufferSize := by
      rw [hindex, Nat.mod_add_mod, Nat.add_assoc]
    rw [incrementBy_eq hle hlength, hnext]
    rw [← hindex] at hend hexact
    rcases hexact with heq | ⟨hslot, hword⟩
    · have hN := g.bufferSize_lt
      rw [heq] at hend ⊢
      rw [if_pos (by omega)]
    · rw [hslot, hword]
      simp
  have hfits : g.fits c.index objects.length = true := g.fits_of_le hle (by rw [hindex]; exact hend)
  refine ⟨ContextPush.pushArray g c objects, by simp only [perform, hpacked, if_true], ?_⟩
  rw [pushArray_short hover hshort hfits, hmoved]
  refine ⟨rfl, rfl, fun f => ?_⟩
  rw [hindex]
  exact stores_piece _ _ _ f hend

theorem Call.Exact.performs_padded {objects : List α} (hpacked : g.packed = false)
    (h : (Call.pushArray objects).Exact g start stop c.dataLength1 done) (hover : c.isOverflow = false)
    (hindex : c.index = (start + done) % g.bufferSize) (behind : Nat → α) :
    (Call.pushArray objects).Performs g start stop done c behind := by
  unfold Call.Exact at h
  simp only [hpacked, Bool.false_eq_true, if_false] at h
  obtain ⟨hshort, hreach⟩ := h
  have htail : (start + stop) % g.bufferSize = (start + done + objects.length) % g.bufferSize := by
    rw [← hreach, Nat.add_assoc]
  refine ⟨⟨true, { c with index := (start + stop) % g.bufferSize }, objects.length,
    (List.range' 0 objects.length).map fun j =>
      ⟨(start + done + j) % g.bufferSize, [pointee objects behind j]⟩⟩, ?_, rfl, ?_, fun f => ?_⟩
  · simp only [perform, hpacked, pushArrayPadded, Bool.false_eq_true, if_false]
    rw [if_neg (ne_true_of_eq_false hover)]
    exact paddedRounds_full htail objects.length hindex (Nat.zero_add _)
      (Nat.lt_succ_of_le (Nat.le_add_right _ _))
  · rw [← hreach]
    rfl
  · match objects, hshort with
    | [], _ => exact stores_nil start done f
    | [object], _ => exact stores_piece _ _ _ f (Nat.mod_lt _ (Nat.succ_pos _))

-- What an exact call does.
theorem Call.Exact.performs {call : Call α} (h : call.Exact g start stop c.dataLength1 done)
    (hover : c.isOverflow = false) (hindex : c.index = (start + done) % g.bufferSize)
    (hdone : done ≤ g.nElements) (hstop : stop ≤ g.nElements) (hlength : c.dataLength1 ≤ g.nElements)
    (behind : Nat → α) : call.Performs g start stop done c behind := by
  have hle : c.index ≤ g.nElements := by
    rw [hindex]
    exact Nat.le_of_lt_succ (Nat.mod_lt _ (Nat.succ_pos _))
  cases call with
  | push object => exact h.performs_push hover hindex hdone hstop hle behind
  | pushArray objects =>
      cases hpacked : g.packed with
      | true => exact h.performs_packed hpacked hover hindex hle hlength behind
      | false => exact h.performs_padded hpacked hover hindex behind

theorem Holds.append {written objects : List α} {f t : Fifo α} (h : Holds g start written f)
    (hstores : Stores g start written.length objects f t)
    (hle : written.length + objects.length ≤ g.bufferSize) :
    Holds g start (written ++ objects) t := by
  intro k hk
  rw [List.length_append] at hk
  by_cases hold : k < written.length
  · rw [List.getElem_append_left hold, hstores.2 _ fun j hj heq => ?_]
    · exact h k hold
    · have := Cyclic.window_inj g.bufferSize start (by omega) (by omega) (by omega) (by omega) heq
      omega
  · have hpiece := hstores.1 (k - written.length) (by omega)
    rw [Nat.add_sub_of_le (by omega)] at hpiece
    rw [List.getElem_append_right (by omega)]
    exact hpiece

-- An array as long as the range is stored in order, in two pieces where the
-- range wraps.
theorem pushArray_whole {objects : List α} (f : Fifo α) (hover : c.isOverflow = false)
    (hindex : c.index = start % g.bufferSize) (hle : objects.length ≤ g.nElements)
    (hlength : c.dataLength1 = if start % g.bufferSize + objects.length ≤ g.bufferSize then objects.length
      else g.bufferSize - start % g.bufferSize) :
    Holds g start objects (f.write (pushArray g c objects).inserts) := by
  have hB : g.bufferSize = g.nElements + 1 := rfl
  have hlt : start % g.bufferSize < g.bufferSize := Nat.mod_lt _ (Nat.succ_pos _)
  have hnil : Holds g start [] f := fun k hk => absurd hk (Nat.not_lt_zero k)
  by_cases hend : start % g.bufferSize + objects.length ≤ g.bufferSize
  · rw [if_pos hend] at hlength
    have hfits : g.fits c.index objects.length = true :=
      g.fits_of_le (by omega) (by rw [hindex]; exact hend)
    rw [pushArray_short hover (Nat.le_of_eq hlength.symm) hfits, hindex]
    exact hnil.append (stores_piece _ _ _ f hend) (by rw [List.length_nil]; omega)
  · rw [if_neg hend] at hlength
    have hsum : c.index + c.dataLength1 = g.bufferSize := by omega
    have hwrap : Fifo.incrementBy g c.index c.dataLength1 = (true, 0) := by
      have hN := g.bufferSize_lt
      rw [incrementBy_eq (by omega) (by omega), hsum, if_pos (by omega), Nat.mod_self]
    have hinserts : (pushArray g c objects).inserts =
        [⟨start % g.bufferSize, objects.take c.dataLength1⟩, ⟨0, objects.drop c.dataLength1⟩] := by
      unfold pushArray
      rw [hover, if_neg Bool.false_ne_true, if_neg (by omega),
        if_pos (g.fits_of_le (by omega) (by omega)), hwrap]
      dsimp only
      rw [if_neg (by decide), if_neg (by decide), if_pos (g.fits_of_le (Nat.zero_le _) (by omega)), hindex]
    have htake : (objects.take c.dataLength1).length = c.dataLength1 := by
      rw [List.length_take]
      omega
    have hfirst := hnil.append (stores_piece start 0 (objects.take c.dataLength1) f
      (by rw [htake, Nat.add_zero]; omega))
      (by rw [List.length_nil, htake]; omega)
    have hzero : (start + (objects.take c.dataLength1).length) % g.bufferSize = 0 := by
      rw [htake, ← Nat.mod_add_mod, ← hindex, hsum, Nat.mod_self]
    have hsecond := hfirst.append (stores_piece start (objects.take c.dataLength1).length
      (objects.drop c.dataLength1) _ (by rw [hzero, List.length_drop]; omega))
      (by rw [List.nil_append, htake, List.length_drop]; omega)
    rw [hzero, List.nil_append, List.take_append_drop] at hsecond
    rw [hinserts]
    exact hsecond

theorem inOrder_of_exact (behind : List (Call α) → Nat → α) (calls : List (Call α)) {written : List α}
    {f : Fifo α} (hexact : ExactCalls g start stop c.dataLength1 written.length calls)
    (hover : c.isOverflow = false) (hindex : c.index = (start + written.length) % g.bufferSize)
    (htail : f.tailReserved = (start + stop) % g.bufferSize)
    (hsum : written.length + (calls.flatMap Call.objects).length ≤ g.nElements)
    (hstop : stop ≤ g.nElements) (hlength : c.dataLength1 ≤ g.nElements) (hholds : Holds g start written f) :
    InOrder g behind start written calls f c := by
  induction calls generalizing written f c with
  | nil => exact hholds
  | cons call rest ih =>
      obtain ⟨hcall, hrest⟩ := hexact
      rw [List.flatMap_cons, List.length_append] at hsum
      obtain ⟨out, hout, hok, hcontext, hstores⟩ := hcall.performs hover hindex (by omega) hstop hlength
        (behind (call :: rest))
      have hheld := hholds.append (hstores f) (by unfold Geometry.bufferSize; omega)
      refine ⟨out, by rw [htail]; exact hout, hok, ?_, hheld, ?_⟩
      · rw [hcontext, List.length_append]
      · have hgrow : (written ++ call.objects).length = written.length + call.objects.length :=
          List.length_append
        rw [← hgrow] at hrest hcontext
        rw [hcontext]
        refine ih hrest hover rfl htail ?_ hlength hheld
        omega

theorem pushArray_success {objects : List α} (hover : c.isOverflow = false)
    (hok : (pushArray g c objects).success = true) :
    objects.length ≤ c.dataLength1 ∧ g.fits c.index objects.length = true ∨
      c.dataLength1 < objects.length ∧ (pushArray g c objects).context.index = 0 ∧
        (Fifo.incrementBy g c.index c.dataLength1).2 = 0 := by
  unfold pushArray at hok ⊢
  rw [if_neg (ne_true_of_eq_false hover)] at hok ⊢
  by_cases hle : objects.length ≤ c.dataLength1
  · rw [if_pos hle] at hok
    split at hok
    · exact .inl ⟨hle, ‹_›⟩
    · cases hok
  · right
    rw [if_neg hle] at hok ⊢
    split at hok
    · dsimp only at hok ⊢
      split_ifs at hok ⊢ with _ hzero <;>
        exact ⟨Nat.lt_of_not_le hle, not_not.mp hzero, not_not.mp hzero⟩
    · cases hok

-- A packed array that fits into the buffer, moves index_ by its length and
-- stores all its objects ends in front of slot N + 1.
theorem exact_of_packed {objects : List α} {f : Fifo α} (hpacked : g.packed = true)
    (hover : c.isOverflow = false) (hindex : c.index = (start + done) % g.bufferSize)
    (hlength : c.dataLength1 ≤ g.nElements) (hsize : objects.length ≤ g.nElements)
    (hok : (pushArray g c objects).success = true)
    (hnext : (pushArray g c objects).context.index = (start + (done + objects.length)) % g.bufferSize)
    (hheld : ∀ k (h : k < objects.length), (f.write (pushArray g c objects).inserts).buffer
      ((start + (done + k)) % g.bufferSize) = objects[k])
    (hadverse : ∀ k (h : k < objects.length),
      f.buffer ((start + (done + k)) % g.bufferSize) ≠ objects[k]) :
    Call.Exact g start stop c.dataLength1 done (.pushArray objects) := by
  have hN := g.bufferSize_lt
  have hB : g.bufferSize = g.nElements + 1 := rfl
  have hle : c.index ≤ g.nElements := by
    rw [hindex]
    exact Nat.le_of_lt_succ (Nat.mod_lt _ (Nat.succ_pos _))
  have hlt : c.index < g.bufferSize := Nat.lt_succ_of_le hle
  have hslot : ∀ k, (start + (done + k)) % g.bufferSize = (c.index + k) % g.bufferSize := by
    intro k
    rw [hindex, Nat.mod_add_mod, Nat.add_assoc]
  have hturn : ∀ k ≤ g.nElements, (c.index + k) % g.bufferSize =
      if c.index + k < g.bufferSize then c.index + k else c.index + k - g.bufferSize := by
    intro k hk
    have hmod := Cyclic.add_mod_eq c.index k g.bufferSize (Nat.succ_pos _) (Nat.le_succ_of_le hk)
    rwa [Nat.mod_eq_of_lt hlt] at hmod
  rw [hslot, hturn _ hsize] at hnext
  rcases pushArray_success hover hok with ⟨hshort, hfits⟩ | ⟨hlong, hzero, hmoved⟩
  · rw [pushArray_short hover hshort hfits] at hnext hheld
    have hend : c.index + objects.length ≤ g.bufferSize := by
      -- slot 0 of a piece that steps over slot N is not written
      by_contra hover
      have hk : g.bufferSize - c.index < objects.length := by omega
      have hfirst : (start + (done + (g.bufferSize - c.index))) % g.bufferSize = 0 := by
        rw [hslot, Nat.add_sub_of_le hlt.le, Nat.mod_self]
      have hwritten := hheld _ hk
      have hkept := hadverse _ hk
      rw [hfirst] at hwritten hkept
      rw [Fifo.write_untouched] at hwritten
      · exact hkept hwritten
      · intro insert hmem htouch
        obtain rfl := List.mem_singleton.mp hmem
        have hfront := htouch.1
        dsimp only at hfront
        omega
    have hinc := congrArg Prod.snd (incrementBy_eq (g := g) hle hlength)
    dsimp only at hnext hinc
    rw [hinc, hturn _ hlength] at hnext
    unfold Call.Exact
    simp only [hpacked, if_true]
    rw [← hindex]
    refine ⟨hshort, hend, ?_⟩
    split_ifs at hnext <;> omega
  · rw [hzero] at hnext
    rw [congrArg Prod.snd (incrementBy_eq (g := g) hle hlength), hturn _ hlength] at hmoved
    dsimp only at hmoved
    split_ifs at hmoved hnext <;> omega

-- A padded array that leaves index_ behind its objects reaches the tail; its
-- second object comes from behind the parameter.
theorem exact_of_padded {objects : List α} {f : Fifo α} {behind : Nat → α} {out : Outcome α}
    (hpacked : g.packed = false) (hover : c.isOverflow = false)
    (hindex : c.index = (start + done) % g.bufferSize) (hsize : done + objects.length ≤ g.nElements)
    (hstop : stop ≤ g.nElements)
    (hout : pushArrayPadded g ((start + stop) % g.bufferSize) c objects behind = some out)
    (hok : out.success = true)
    (hnext : out.context.index = (start + (done + objects.length)) % g.bufferSize)
    (hheld : ∀ k (h : k < objects.length),
      (f.write out.inserts).buffer ((start + (done + k)) % g.bufferSize) = objects[k])
    (hbehind : ∀ k (h : k < objects.length), behind k ≠ objects[k]) :
    Call.Exact g start stop c.dataLength1 done (.pushArray objects) := by
  have hB : g.bufferSize = g.nElements + 1 := rfl
  unfold pushArrayPadded at hout
  rw [if_neg (ne_true_of_eq_false hover)] at hout
  have hreach : done + objects.length = stop := by
    have heq := (paddedRounds_index hout hok).symm.trans hnext
    have := Cyclic.window_inj g.bufferSize start (by omega) (by omega) (by omega) (by omega) heq
    omega
  have hshort : objects.length ≤ 1 := by
    by_contra hlong
    have htail : (start + stop) % g.bufferSize = (start + done + objects.length) % g.bufferSize := by
      rw [← hreach, Nat.add_assoc]
    rw [paddedRounds_full htail objects.length hindex (Nat.zero_add _)
      (Nat.lt_succ_of_le (Nat.le_add_right _ _)), Option.some.injEq] at hout
    subst hout
    have hsecond := hheld 1 (by omega)
    refine hbehind 1 (by omega) ?_
    obtain ⟨count, hcount⟩ := Nat.exists_eq_add_of_le (show 2 ≤ objects.length by omega)
    have hrounds : List.range' 0 objects.length = 0 :: 1 :: List.range' 2 count := by
      rw [hcount, Nat.add_comm 2 count, List.range'_succ, List.range'_succ]
    dsimp only at hsecond
    rw [hrounds, List.map_cons, List.map_cons, Fifo.write_cons, Fifo.write_cons,
      Fifo.write_untouched] at hsecond
    · rw [← Nat.add_assoc, Fifo.write_one] at hsecond
      exact hsecond
    · intro insert hmem htouch
      obtain ⟨j, hj, rfl⟩ := List.mem_map.mp hmem
      obtain ⟨hge, hlt⟩ := List.mem_range'_1.mp hj
      obtain ⟨hlow, hhigh⟩ := htouch
      dsimp only [List.length_singleton] at hlow hhigh
      have heq : (start + (done + 1)) % g.bufferSize = (start + (done + j)) % g.bufferSize := by
        rw [← Nat.add_assoc start done j]
        omega
      have := Cyclic.window_inj g.bufferSize start (by omega) (by omega) (by omega) (by omega) heq
      omega
  unfold Call.Exact
  simp only [hpacked, Bool.false_eq_true, if_false]
  exact ⟨hshort, hreach⟩

-- A call that succeeds, moves index_ by its objects and stores them is exact.
theorem exact_of_success {call : Call α} {f : Fifo α} {behind : Nat → α} {out : Outcome α}
    (hover : c.isOverflow = false) (hindex : c.index = (start + done) % g.bufferSize)
    (hsize : done + call.objects.length ≤ g.nElements) (hstop : stop ≤ g.nElements)
    (hlength : c.dataLength1 ≤ g.nElements)
    (hout : perform g ((start + stop) % g.bufferSize) c behind call = some out) (hok : out.success = true)
    (hnext : out.context.index = (start + (done + call.objects.length)) % g.bufferSize)
    (hheld : ∀ k (h : k < call.objects.length),
      (f.write out.inserts).buffer ((start + (done + k)) % g.bufferSize) = call.objects[k])
    (hadverse : ∀ k (h : k < call.objects.length),
      f.buffer ((start + (done + k)) % g.bufferSize) ≠ call.objects[k])
    (hbehind : ∀ k (h : k < call.objects.length), behind k ≠ call.objects[k]) :
    call.Exact g start stop c.dataLength1 done := by
  cases call with
  | push object =>
      intro heq
      unfold perform at hout
      dsimp only at hout
      unfold ContextPush.push at hout
      rw [if_neg (ne_true_of_eq_false hover), if_neg (by rw [hindex, heq, not_not]),
        Option.some.injEq] at hout
      subst hout
      cases hok
  | pushArray objects =>
      unfold perform at hout
      dsimp only [Call.objects] at hout hsize
      cases hpacked : g.packed with
      | true =>
          rw [if_pos hpacked, Option.some.injEq] at hout
          subst hout
          exact exact_of_packed hpacked hover hindex hlength (by omega) hok hnext hheld hadverse
      | false =>
          rw [if_neg (ne_true_of_eq_false hpacked)] at hout
          exact exact_of_padded hpacked hover hindex hsize hstop hout hok hnext hheld hbehind

-- When no reserved slot holds its object beforehand and nothing behind the
-- parameter does, every call of a run in order is exact.
theorem exact_of_inOrder {behind : List (Call α) → Nat → α}
    (hbehind : ∀ call rest k (h : k < (Call.objects call).length), behind (call :: rest) k ≠ call.objects[k])
    (calls : List (Call α)) {written : List α} {f : Fifo α}
    (h : InOrder g behind start written calls f c) (hover : c.isOverflow = false)
    (hindex : c.index = (start + written.length) % g.bufferSize)
    (htail : f.tailReserved = (start + stop) % g.bufferSize)
    (hsum : written.length + (calls.flatMap Call.objects).length ≤ g.nElements)
    (hstop : stop ≤ g.nElements) (hlength : c.dataLength1 ≤ g.nElements)
    (hadverse : ∀ k (h : k < (calls.flatMap Call.objects).length),
      f.buffer ((start + (written.length + k)) % g.bufferSize) ≠ (calls.flatMap Call.objects)[k]) :
    ExactCalls g start stop c.dataLength1 written.length calls := by
  induction calls generalizing written f c with
  | nil => trivial
  | cons call rest ih =>
      obtain ⟨out, hout, hok, hnext, hheld, hrest⟩ := h
      have hgrow : (written ++ call.objects).length = written.length + call.objects.length :=
        List.length_append
      rw [htail] at hout
      rw [hgrow] at hnext
      simp only [List.flatMap_cons, List.length_append] at hsum hadverse
      have hown : ∀ k (h : k < call.objects.length),
          (f.write out.inserts).buffer ((start + (written.length + k)) % g.bufferSize) = call.objects[k] := by
        intro k hk
        rw [hheld (written.length + k) (by omega), List.getElem_append_right (by omega)]
        simp only [Nat.add_sub_cancel_left]
      have hfresh : ∀ k (h : k < call.objects.length),
          f.buffer ((start + (written.length + k)) % g.bufferSize) ≠ call.objects[k] := by
        intro k hk
        have hne := hadverse k (by omega)
        rwa [List.getElem_append_left hk] at hne
      have hcall : call.Exact g start stop c.dataLength1 written.length :=
        exact_of_success hover hindex (by omega) hstop hlength hout hok hnext hown hfresh (hbehind call rest)
      obtain ⟨out', hout', _, hcontext, hstores⟩ := hcall.performs hover hindex (by omega) hstop hlength
        (behind (call :: rest))
      obtain rfl : out = out' := Option.some.inj (hout.symm.trans hout')
      refine ⟨hcall, ?_⟩
      have hlater := ih hrest (by rw [hcontext]; exact hover) (by rw [hcontext, hgrow]) htail (by omega)
        (by rw [hcontext]; exact hlength) ?_
      · rw [hcontext, hgrow] at hlater
        exact hlater
      · intro k hk
        rw [hgrow, Nat.add_assoc, (hstores f).2 _ fun j hj heq => ?_]
        · have hne := hadverse (call.objects.length + k) (by omega)
          rw [List.getElem_append_right (by omega)] at hne
          simpa only [Nat.add_sub_cancel_left] using hne
        · have := Cyclic.window_inj g.bufferSize start (by omega) (by unfold Geometry.bufferSize; omega)
            (by omega) (by unfold Geometry.bufferSize; omega) heq
          omega

-- A sum beyond 32 bits leaves the tail short of the range, and no calls can be
-- exact up to its end.
theorem not_exactCalls_of_short {nObjects : Nat} (hstart : start ≤ g.nElements)
    (hle : nObjects ≤ g.nElements) (hword : 2 ^ 32 < start + nObjects)
    (hstop : stop + 2 ^ 32 = nObjects + g.bufferSize) (calls : List (Call α)) {done : Nat}
    (hdone : done ≤ stop) (hsum : done + (calls.flatMap Call.objects).length = nObjects) :
    ¬ExactCalls g start stop nObjects done calls := by
  have hB : g.bufferSize = g.nElements + 1 := rfl
  have hN := g.bufferSize_lt
  induction calls generalizing done with
  | nil =>
      simp only [List.flatMap_nil, List.length_nil] at hsum
      omega
  | cons call rest ih =>
      rintro ⟨hcall, hrest⟩
      simp only [List.flatMap_cons, List.length_append] at hsum
      refine ih ?_ (by omega) hrest
      cases call with
      | push object =>
          dsimp only [Call.Exact, Call.objects, List.length_singleton] at *
          omega
      | pushArray objects =>
          unfold Call.Exact at hcall
          dsimp only [Call.objects] at *
          split at hcall
          · have hmod := Cyclic.add_mod_eq start done g.bufferSize (by omega) (by omega)
            rw [Nat.mod_eq_of_lt (show start < g.bufferSize by omega)] at hmod
            split_ifs at hmod <;> omega
          · omega

theorem construct_lengths {f : Fifo α} {nObjects : Nat} (hfits : f.isFullBy g nObjects = false) :
    (construct g f nObjects).2.index = f.tailReserved ∧
      (construct g f nObjects).2.dataLength1 =
        if uint32 (f.tailReserved + nObjects) ≤ g.bufferSize then nObjects
        else g.bufferSize - f.tailReserved := by
  unfold construct
  rw [if_neg (ne_true_of_eq_false hfits)]
  simp only [decide_eq_true_eq, and_self]

-- A buffer and a memory in which no object stands where it will be stored, or
-- where a padded array reads it.
theorem exists_adverse [Nontrivial α] (hstart : start ≤ g.nElements) (objects : List α)
    (hle : objects.length ≤ g.bufferSize) :
    ∃ (behind : List (Call α) → Nat → α) (buffer : Nat → α),
      (∀ call rest k (h : k < (Call.objects call).length), behind (call :: rest) k ≠ call.objects[k]) ∧
        ∀ k (h : k < objects.length), buffer ((start + k) % g.bufferSize) ≠ objects[k] := by
  have hB : g.bufferSize = g.nElements + 1 := rfl
  obtain ⟨first, _, _⟩ := exists_pair_ne α
  choose other hother using fun object : α => exists_ne object
  refine ⟨fun calls k => other ((calls.head?.bind fun call => call.objects[k]?).getD first),
    fun slot => other ((objects[(slot + g.bufferSize - start) % g.bufferSize]?).getD first), ?_, ?_⟩
  · intro call rest k hk
    simpa [hk] using hother call.objects[k]
  · intro k hk
    have hback : ((start + k) % g.bufferSize + g.bufferSize - start) % g.bufferSize = k := by
      have hmod := Cyclic.add_mod_eq start k g.bufferSize (by omega) (by omega)
      rw [Nat.mod_eq_of_lt (show start < g.bufferSize by omega)] at hmod
      rw [hmod]
      split
      · rw [show start + k + g.bufferSize - start = k + g.bufferSize by omega, Nat.add_mod_right,
          Nat.mod_eq_of_lt (by omega)]
      · rw [show start + k - g.bufferSize + g.bufferSize - start = k by omega, Nat.mod_eq_of_lt (by omega)]
    simpa only [hback, List.getElem?_eq_getElem hk, Option.getD_some] using hother objects[k]

-- A split is pushed in order, whatever the buffer held and whatever lies behind
-- the parameters, just if its calls are exact.
theorem push_array_in_order_iff [Nontrivial α] {f : Fifo α} {nObjects : Nat} (calls : List (Call α))
    (htail : f.tailReserved ≤ g.nElements) (hpos : 0 < nObjects) (hle : nObjects ≤ g.nElements)
    (hfits : (construct g f nObjects).2.isOverflow = false)
    (hlen : (calls.flatMap Call.objects).length = nObjects) :
    (∀ behind buffer, InOrder g behind f.tailReserved [] calls
        { (construct g f nObjects).1 with buffer := buffer } (construct g f nObjects).2) ↔
      f.tailReserved + nObjects ≤ 2 ^ 32 ∧
        ExactCalls g f.tailReserved nObjects (construct g f nObjects).2.dataLength1 0 calls := by
  have hB : g.bufferSize = g.nElements + 1 := rfl
  have hN := g.bufferSize_lt
  have hfull := isFullBy_of_fits hfits
  obtain ⟨hindex, hlength⟩ := construct_lengths hfull
  have hlengthle : (construct g f nObjects).2.dataLength1 ≤ g.nElements := by
    rw [hlength]
    unfold uint32
    split <;> omega
  have hslot : (construct g f nObjects).2.index = (f.tailReserved + 0) % g.bufferSize := by
    rw [hindex, Nat.add_zero, Nat.mod_eq_of_lt (by omega)]
  constructor
  · intro h
    obtain ⟨behind, buffer, hbehind, hbuffer⟩ := exists_adverse htail (calls.flatMap Call.objects)
      (by omega)
    have hexact : ∀ stop ≤ g.nElements,
        (construct g f nObjects).1.tailReserved = (f.tailReserved + stop) % g.bufferSize →
        ExactCalls g f.tailReserved stop (construct g f nObjects).2.dataLength1 0 calls :=
      fun stop hstop htail => exact_of_inOrder hbehind calls (h behind buffer) hfits hslot htail
        (by rw [hlen]; simpa using hle) hstop hlengthle (by simpa using hbuffer)
    by_cases hword : f.tailReserved + nObjects ≤ 2 ^ 32
    · exact ⟨hword, hexact nObjects hle ((Fifo.construct_tail_eq_iff htail hpos hle hfull).mpr hword)⟩
    · exfalso
      have hshort : (construct g f nObjects).1.tailReserved =
          (f.tailReserved + (nObjects + g.bufferSize - 2 ^ 32)) % g.bufferSize := by
        obtain ⟨_, _, _, _, hmoved⟩ := construct_reserves hfull
        have hrange := rangeEnd_eq htail hpos hle
        rw [if_neg (by omega), lastMarked, if_neg (by omega)] at hrange
        rw [hmoved, hrange, Fifo.increment]
        dsimp only
        rw [if_pos (by omega), show f.tailReserved + (nObjects + g.bufferSize - 2 ^ 32) =
          f.tailReserved + nObjects - 2 ^ 32 + g.bufferSize by omega, Nat.add_mod_right,
          Nat.mod_eq_of_lt (by omega)]
        omega
      have hall : (construct g f nObjects).2.dataLength1 = nObjects := by
        rw [hlength, if_pos]
        unfold uint32
        omega
      refine not_exactCalls_of_short htail hle (by omega) (by omega) calls (Nat.zero_le _)
        (by rw [hlen, Nat.zero_add]) (hall ▸ hexact _ (by omega) hshort)
  · rintro ⟨hword, hexact⟩ behind buffer
    have hmoved := (Fifo.construct_tail_eq_iff htail hpos hle hfull).mpr hword
    exact inOrder_of_exact behind calls hexact hfits hslot hmoved (by rw [hlen]; simpa using hle) hle
      hlengthle fun k hk => absurd hk (Nat.not_lt_zero k)

-- Two arrays of one object in a range of two: the first call moves index_ by
-- data_length1_, which is two.
theorem first_array_moves_index_too_far :
    ¬∀ (g : Geometry) (f : Fifo Bool) (nObjects : Nat) (calls : List (Call Bool)),
      f.tailReserved ≤ g.nElements → 0 < nObjects → nObjects ≤ g.nElements →
      (construct g f nObjects).2.isOverflow = false →
      (calls.flatMap Call.objects).length = nObjects →
      ∀ behind buffer, InOrder g behind f.tailReserved [] calls
        { (construct g f nObjects).1 with buffer := buffer } (construct g f nObjects).2 := by
  intro h
  obtain ⟨out, hout, _, hnext, _⟩ := h (.ofBytes 7 0 (by decide)) ⟨0, 0, fun _ => 0, fun _ => false⟩ 2
    [.pushArray [true], .pushArray [true]] (by decide) (by decide) (by decide) (by decide) rfl
    (fun _ _ => false) fun _ => false
  obtain rfl := Option.some.inj hout
  revert hnext
  decide

-- A range that wraps: the first piece as one array, then a push.
theorem push_array_in_order_wrapped :
    InOrder (.ofBytes 7 0 (by decide)) (fun _ _ => true) 6 [] [.pushArray [true, false], .push true]
      { (construct (.ofBytes 7 0 (by decide)) ⟨6, 3, fun _ => 0, fun _ => false⟩ 3).1 with
        buffer := fun _ => false }
      (construct (.ofBytes 7 0 (by decide)) ⟨6, 3, fun _ => 0, fun _ => false⟩ 3).2 :=
  (push_array_in_order_iff (g := .ofBytes 7 0 (by decide)) (f := ⟨6, 3, fun _ => 0, fun _ => false⟩)
    [.pushArray [true, false], .push true] (by decide) (by decide) (by decide) (by decide) rfl).mpr
    ⟨by decide, by decide, by decide, trivial⟩ (fun _ _ => true) fun _ => false

end ContextPush

end Carbon
