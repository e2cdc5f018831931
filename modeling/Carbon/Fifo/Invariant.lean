import Carbon.Fifo.Reserved

namespace Carbon

namespace Fifo

open Reservation

variable {α : Type} (g : Geometry)

-- The entries a producer has reserved and not committed yet.
def Producer.Holds : Producer α → Nat → Prop
  | .pushing _ _ entry, i | .pushed _ entry, i => i = entry
  | .context c entry _, i | .filling c entry _ _ _, i =>
      c.isOverflow = false ∧ entry ≤ i ∧ i < entry + c.nObjects
  | .idle, _ => False

-- A context that did not overflow covers the slots of its entries, and nothing
-- is promised about them before the commit.
def Covers (l : Log α) (c : ContextPush) (entry : Nat) : Prop :=
  c.isOverflow = false →
    c.fifoPosStart = entry % g.bufferSize ∧
    c.fifoPosEnd = (entry + (c.nObjects - 1)) % g.bufferSize ∧
    0 < c.nObjects ∧ c.nObjects ≤ g.nElements ∧
    ∀ i, entry ≤ i → i < entry + c.nObjects → l.object i = none

-- What a producer knows between two of its parts.
def Producer.Local (l : Log α) (buffer : Nat → α) : Producer α → Prop
  | .idle => True
  | .pushing object fifoPos entry => fifoPos = entry % g.bufferSize ∧ l.object entry = some object
  | .pushed fifoPos entry =>
      fifoPos = entry % g.bufferSize ∧ l.object entry = some (buffer fifoPos)
  | .context c entry _ | .filling c entry _ _ _ => Covers g l c entry

-- What the consumer knows between two of its parts.
def Consumer.Local (l : Log α) : Consumer α → Prop
  | .idle => True
  | .looked currentHead =>
      currentHead = l.delivered.length % g.bufferSize ∧ l.committed l.delivered.length = true
  | .removed currentHead object =>
      currentHead = l.delivered.length % g.bufferSize ∧ l.committed l.delivered.length = true ∧
        l.object l.delivered.length = some object
  | .pulling c values =>
      c.currentHead = l.delivered.length % g.bufferSize ∧
        Pieces g c.currentHead (c.dataLength1 + c.dataLength2) c.dataLength1 c.dataLength2 ∧
        (∀ k < c.dataLength1 + c.dataLength2, l.committed (l.delivered.length + k) = true) ∧
        values.length ≤ c.dataLength1 + c.dataLength2 ∧
        ∀ k, (hk : k < values.length) → l.object (l.delivered.length + k) = some values[k]

-- The ring against the history: head and tail count what was delivered and
-- what was reserved, and a slot is ready when its entry is committed and not
-- delivered yet.
structure Inv (s : State α) : Prop where
  sound : s.log.Sound g.nElements
  head : s.fifo.head = s.log.delivered.length % g.bufferSize
  tail : s.fifo.tailReserved = s.log.reserved % g.bufferSize
  ready : ∀ slot, s.fifo.isReady slot = true ↔
    ∃ i, s.log.delivered.length ≤ i ∧ s.log.committed i = true ∧ i % g.bufferSize = slot
  content : ∀ i, s.log.delivered.length ≤ i → s.log.committed i = true →
    s.log.object i = some (s.fifo.buffer (i % g.bufferSize))
  held : ∀ p i, (s.producer p).Holds i → i < s.log.reserved ∧ s.log.committed i = false
  disjoint : ∀ p q i, (s.producer p).Holds i → (s.producer q).Holds i → p = q
  producer : ∀ p, (s.producer p).Local g s.log s.fifo.buffer
  consumer : s.consumer.Local g s.log

variable {g} {s t : State α}

theorem Inv.held_ge (h : Inv g s) {p i : Nat} (hi : (s.producer p).Holds i) :
    s.log.delivered.length ≤ i := by
  by_contra hlt
  have hc := (h.sound.delivered i (by omega)).1
  rw [(h.held p i hi).2] at hc
  cases hc

theorem Inv.slot_inj (h : Inv g s) {i j : Nat} (hi : s.log.delivered.length ≤ i)
    (hi' : i < s.log.reserved) (hj : s.log.delivered.length ≤ j) (hj' : j < s.log.reserved)
    (heq : i % g.bufferSize = j % g.bufferSize) : i = j := by
  have hbound := h.sound.bounded
  unfold Geometry.bufferSize at heq
  exact Cyclic.window_inj _ _ hi (by omega) hj (by omega) heq

theorem Inv.head_le (h : Inv g s) : s.fifo.head ≤ g.nElements := by
  rw [h.head]
  exact Nat.le_of_lt_succ (Nat.mod_lt _ (Nat.succ_pos _))

theorem Inv.ready_mod (h : Inv g s) {i : Nat} (hi : s.log.delivered.length ≤ i)
    (hi' : i < s.log.reserved) :
    s.fifo.isReady (i % g.bufferSize) = true ↔ s.log.committed i = true := by
  rw [h.ready]
  constructor
  · rintro ⟨j, hj, hcj, heq⟩
    rwa [← h.slot_inj hj (h.sound.committed_lt hcj) hi hi' heq]
  · exact fun hc => ⟨i, hi, hc, rfl⟩

-- A reservation ends where the ring has wrapped exactly once at most, so the
-- first slot that is not reserved has no ready bit.
theorem Inv.not_ready_of_tail (h : Inv g s) (i : Nat) (hi : s.log.reserved ≤ i)
    (hi' : i < s.log.delivered.length + g.bufferSize) :
    s.fifo.isReady (i % g.bufferSize) = false := by
  rw [← Bool.not_eq_true, h.ready]
  rintro ⟨j, hj, hcj, heq⟩
  have hlt := h.sound.committed_lt hcj
  have hle := h.sound.delivered_le
  have : j = i := Cyclic.window_inj _ _ hj (by omega) (by omega) hi' heq
  omega

theorem Producer.Local.frame {l m : Log α} {buffer buffer' : Nat → α} {x : Producer α}
    (h : x.Local g l buffer)
    (hsame : ∀ i, x.Holds i → m.object i = l.object i ∧
      buffer' (i % g.bufferSize) = buffer (i % g.bufferSize)) : x.Local g m buffer' := by
  have hcovers : ∀ (c : ContextPush) (entry : Nat),
      (∀ i, c.isOverflow = false ∧ entry ≤ i ∧ i < entry + c.nObjects → m.object i = l.object i) →
      Covers g l c entry → Covers g m c entry := by
    intro c entry hsame hc hover
    obtain ⟨hstart, hend, hpos, hle, hnone⟩ := hc hover
    refine ⟨hstart, hend, hpos, hle, fun i hi hi' => ?_⟩
    rw [hsame i ⟨hover, hi, hi'⟩]
    exact hnone i hi hi'
  cases x with
  | idle => trivial
  | pushing object fifoPos entry =>
      exact ⟨h.1, (hsame entry rfl).1.trans h.2⟩
  | pushed fifoPos entry =>
      obtain ⟨hpos, hobject⟩ := h
      obtain ⟨hm, hb⟩ := hsame entry rfl
      refine ⟨hpos, ?_⟩
      rw [hm, hobject, hpos, hb]
  | context c entry advanced => exact hcovers c entry (fun i hi => (hsame i hi).1) h
  | filling c entry advanced i length => exact hcovers c entry (fun i hi => (hsame i hi).1) h

theorem Consumer.Local.frame {l m : Log α} {x : Consumer α} (h : x.Local g l)
    (hdelivered : m.delivered = l.delivered)
    (hsame : ∀ i, l.delivered.length ≤ i → l.committed i = true →
      m.committed i = true ∧ m.object i = l.object i) : x.Local g m := by
  cases x with
  | idle => trivial
  | looked currentHead =>
      obtain ⟨hhead, hc⟩ := h
      unfold Consumer.Local
      rw [hdelivered]
      exact ⟨hhead, (hsame _ (Nat.le_refl _) hc).1⟩
  | removed currentHead object =>
      obtain ⟨hhead, hc, ho⟩ := h
      obtain ⟨hc', ho'⟩ := hsame _ (Nat.le_refl _) hc
      unfold Consumer.Local
      rw [hdelivered]
      exact ⟨hhead, hc', ho'.trans ho⟩
  | pulling c values =>
      obtain ⟨hhead, hpieces, hc, hlen, ho⟩ := h
      unfold Consumer.Local
      rw [hdelivered]
      refine ⟨hhead, hpieces, fun k hk => (hsame _ (Nat.le_add_right _ _) (hc k hk)).1, hlen, ?_⟩
      intro k hk
      rw [(hsame _ (Nat.le_add_right _ _) (hc k (Nat.lt_of_lt_of_le hk hlen))).2]
      exact ho k hk

-- What a part of producer p may change: p's own entries, or entries that
-- nobody has reserved yet.
structure Produces (g : Geometry) (s t : State α) (p : Nat) (x : Producer α) : Prop where
  producer : t.producer = Function.update s.producer p x
  consumer : t.consumer = s.consumer
  sound : t.log.Sound g.nElements
  delivered : t.log.delivered = s.log.delivered
  head : t.fifo.head = s.fifo.head
  tail : t.fifo.tailReserved = t.log.reserved % g.bufferSize
  reserved : s.log.reserved ≤ t.log.reserved
  others : ∀ i, s.log.delivered.length ≤ i → i < s.log.reserved → ¬(s.producer p).Holds i →
    t.log.committed i = s.log.committed i ∧ t.log.object i = s.log.object i ∧
      t.fifo.buffer (i % g.bufferSize) = s.fifo.buffer (i % g.bufferSize)
  ready : ∀ slot, t.fifo.isReady slot = true ↔
    ∃ i, s.log.delivered.length ≤ i ∧ t.log.committed i = true ∧ i % g.bufferSize = slot
  fresh : ∀ i, s.log.reserved ≤ i → t.log.committed i = false
  content : ∀ i, (s.producer p).Holds i → t.log.committed i = true →
    t.log.object i = some (t.fifo.buffer (i % g.bufferSize))
  held : ∀ i, x.Holds i → t.log.committed i = false ∧
    ((s.producer p).Holds i ∨ s.log.reserved ≤ i ∧ i < t.log.reserved)
  known : x.Local g t.log t.fifo.buffer

theorem Produces.other {p q : Nat} {x : Producer α} (hp : Produces g s t p x) (hq : q ≠ p) :
    t.producer q = s.producer q := by
  rw [hp.producer]
  exact Function.update_of_ne hq _ _

theorem Produces.self {p : Nat} {x : Producer α} (hp : Produces g s t p x) : t.producer p = x := by
  rw [hp.producer]
  exact Function.update_self _ _ _

-- What another producer holds is not touched.
theorem Inv.foreign_kept (h : Inv g s) {p q : Nat} {x : Producer α} (hp : Produces g s t p x)
    (hq : q ≠ p) {i : Nat} (hi : (s.producer q).Holds i) : t.log.committed i = false ∧
      t.log.object i = s.log.object i ∧
      t.fifo.buffer (i % g.bufferSize) = s.fifo.buffer (i % g.bufferSize) := by
  obtain ⟨hlt, hc⟩ := h.held q i hi
  obtain ⟨hc', ho, hb⟩ := hp.others i (h.held_ge hi) hlt
    (fun hown => hq (h.disjoint q p i hi hown))
  exact ⟨hc'.trans hc, ho, hb⟩

theorem Inv.foreign_apart (h : Inv g s) {p q : Nat} {x : Producer α} (hp : Produces g s t p x)
    (hq : q ≠ p) {i : Nat} (hx : x.Holds i) : ¬(s.producer q).Holds i := by
  intro hi
  rcases (hp.held i hx).2 with hown | ⟨hnew, _⟩
  · exact hq (h.disjoint q p i hi hown)
  · have := (h.held q i hi).1
    omega

theorem Inv.produces (h : Inv g s) {p : Nat} {x : Producer α} (hp : Produces g s t p x) :
    Inv g t := by
  have hold : ∀ i, s.log.delivered.length ≤ i → s.log.committed i = true →
      t.log.committed i = true ∧ t.log.object i = s.log.object i := by
    intro i hi hc
    have hown : ¬(s.producer p).Holds i := by
      intro hheld
      rw [(h.held p i hheld).2] at hc
      cases hc
    obtain ⟨hc', ho, _⟩ := hp.others i hi (h.sound.committed_lt hc) hown
    exact ⟨hc'.trans hc, ho⟩
  refine ⟨hp.sound, ?_, hp.tail, ?_, ?_, ?_, ?_, ?_, ?_⟩
  · rw [hp.head, hp.delivered]; exact h.head
  · rw [hp.delivered]; exact hp.ready
  · rw [hp.delivered]
    intro i hi hc
    have hlt : i < s.log.reserved := by
      by_contra hge
      rw [hp.fresh i (by omega)] at hc
      cases hc
    by_cases hown : (s.producer p).Holds i
    · exact hp.content i hown hc
    · obtain ⟨hc', ho, hb⟩ := hp.others i hi hlt hown
      rw [ho, hb]
      exact h.content i hi (hc'.symm.trans hc)
  · intro q i hi
    by_cases hq : q = p
    · subst hq
      rw [hp.self] at hi
      obtain ⟨hc, hown | ⟨_, hlt⟩⟩ := hp.held i hi
      · exact ⟨Nat.lt_of_lt_of_le (h.held q i hown).1 hp.reserved, hc⟩
      · exact ⟨hlt, hc⟩
    · rw [hp.other hq] at hi
      exact ⟨Nat.lt_of_lt_of_le (h.held q i hi).1 hp.reserved, (h.foreign_kept hp hq hi).1⟩
  · intro q r i hi hj
    by_cases hq : q = p <;> by_cases hr : r = p
    · rw [hq, hr]
    · subst hq
      rw [hp.self] at hi
      rw [hp.other hr] at hj
      exact absurd hj (h.foreign_apart hp hr hi)
    · subst hr
      rw [hp.self] at hj
      rw [hp.other hq] at hi
      exact absurd hi (h.foreign_apart hp hq hj)
    · rw [hp.other hq] at hi
      rw [hp.other hr] at hj
      exact h.disjoint q r i hi hj
  · intro q
    by_cases hq : q = p
    · subst hq; rw [hp.self]; exact hp.known
    · rw [hp.other hq]
      exact (h.producer q).frame fun i hi => (h.foreign_kept hp hq hi).2
  · rw [hp.consumer]
    exact h.consumer.frame hp.delivered hold

end Fifo

end Carbon
