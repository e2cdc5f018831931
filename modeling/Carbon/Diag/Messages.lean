import Carbon.Diag.Machine
import Carbon.Fifo.Preserved

namespace Carbon

namespace Diag

open Reservation

variable (d : Declaration)

-- The concatenation of the accepted messages, and what was popped of it.
def State.stream (s : State) : List UInt8 := s.accepted.flatten

def State.popped (s : State) : List UInt8 := s.diagFifo.log.delivered

def State.free (s : State) : Nat := d.nElements - (s.stream.length - s.popped.length)

-- The lengths the FIFO is meant for.
def Lengths : Event → Prop
  | .push _ message => 1 ≤ message.length ∧ message.length + 8 ≤ d.nElements
  | _ => True

instance : DecidablePred (Lengths d)
  | .push _ message => inferInstanceAs
      (Decidable (1 ≤ message.length ∧ message.length + 8 ≤ d.nElements))
  | .output _ | .close _ | .popLook | .popRemove _ | .popAdvance => isTrue trivial

def Rejected (s : State) (p : Nat) : Prop :=
  ∃ c entry advanced, s.diagFifo.producer p = .context c entry advanced ∧ c.isOverflow = true

-- A call that got its reservation: its slots hold the stream up to index_, and
-- the characters still to come are the stream from there on.
structure Printing (stream : List UInt8) (buffer : Nat → UInt8) (c : ContextPush)
    (entry advanced : Nat) (rest : List UInt8) : Prop where
  fits : c.isOverflow = false
  short : c.nObjects + 8 ≤ d.nElements
  total : advanced + rest.length = c.nObjects
  written : ∀ k < advanced,
    stream[entry + k]? = some (buffer ((entry + k) % d.fifo.bufferSize))
  left : ∀ k, (hk : k < rest.length) → stream[entry + advanced + k]? = some rest[k]

def Caller (stream : List UInt8) (buffer : Nat → UInt8) (rest : Option (List UInt8)) :
    Fifo.Producer UInt8 → Prop
  | .idle => rest = none
  | .context c entry advanced =>
      c.isOverflow = true ∧ rest = some [] ∨
        ∃ characters, rest = some characters ∧ Printing d stream buffer c entry advanced characters
  | _ => False

structure Inv (s : State) : Prop where
  fifo : Fifo.Inv d.fifo s.diagFifo
  tracked : Fifo.Tracked d.fifo s.diagFifo
  reserved : s.diagFifo.log.reserved = s.stream.length
  content : ∀ i, s.diagFifo.log.committed i = true → s.diagFifo.log.object i = s.stream[i]?
  caller : ∀ p, Caller d s.stream s.diagFifo.fifo.buffer (s.rest p) (s.diagFifo.producer p)

variable {d} {s t : State}

theorem Caller.frame {stream stream' : List UInt8} {buffer buffer' : Nat → UInt8}
    {rest : Option (List UInt8)} {x : Fifo.Producer UInt8} (h : Caller d stream buffer rest x)
    (hsame : ∀ i, x.Holds i → stream'[i]? = stream[i]? ∧
      buffer' (i % d.fifo.bufferSize) = buffer (i % d.fifo.bufferSize)) :
    Caller d stream' buffer' rest x := by
  cases x with
  | idle => exact h
  | context c entry advanced =>
      rcases h with hover | ⟨characters, hrest, hp⟩
      · exact .inl hover
      · have htotal := hp.total
        refine .inr ⟨characters, hrest, hp.fits, hp.short, hp.total, ?_, ?_⟩
        · intro k hk
          obtain ⟨hs, hb⟩ := hsame (entry + k) ⟨hp.fits, by omega, by omega⟩
          rw [hs, hb]
          exact hp.written k hk
        · intro k hk
          obtain ⟨hs, _⟩ := hsame (entry + advanced + k) ⟨hp.fits, by omega, by omega⟩
          rw [hs]
          exact hp.left k hk
  | pushing _ _ _ => exact h.elim
  | pushed _ _ => exact h.elim
  | filling _ _ _ _ _ => exact h.elim

-- The constructor of an idle caller: refused when the message is longer than
-- what is free.
theorem Inv.isFullBy_iff (h : Inv d s) {length : Nat} (hle : length ≤ d.nElements) :
    s.diagFifo.fifo.isFullBy d.fifo length = true ↔ s.free d < length := by
  have hsound := h.fifo.sound
  have hbound := hsound.bounded
  rw [Fifo.isFullBy_iff d.fifo s.diagFifo.fifo hsound.delivered_le hbound h.fifo.head h.fifo.tail hle,
    h.reserved]
  rw [h.reserved] at hbound
  have hN : d.fifo.nElements = d.nElements := rfl
  unfold State.free State.popped
  omega

theorem Inv.inside (h : Inv d s) {p : Nat} {characters : List UInt8}
    (hp : s.rest p = some characters) :
    ∃ c entry advanced, s.diagFifo.producer p = .context c entry advanced ∧
      (c.isOverflow = true ∧ characters = [] ∨
        Printing d s.stream s.diagFifo.fifo.buffer c entry advanced characters) := by
  have hcaller := h.caller p
  rw [hp] at hcaller
  cases hx : s.diagFifo.producer p with
  | idle => rw [hx] at hcaller; cases hcaller
  | context c entry advanced =>
      rw [hx] at hcaller
      refine ⟨c, entry, advanced, rfl, ?_⟩
      rcases hcaller with ⟨hover, hrest⟩ | ⟨characters', hrest, hprint⟩
      · exact .inl ⟨hover, Option.some.inj hrest⟩
      · obtain rfl := Option.some.inj hrest
        exact .inr hprint
  | pushing _ _ _ => rw [hx] at hcaller; exact hcaller.elim
  | pushed _ _ => rw [hx] at hcaller; exact hcaller.elim
  | filling _ _ _ _ _ => rw [hx] at hcaller; exact hcaller.elim

-- A message of such a length never wraps inside one byte of the bitmap, and
-- the last byte of the bitmap covers slot N alone.
theorem Printing.exact (hmultiple : 8 ∣ d.nElements) (hinv : Fifo.Inv d.fifo s.diagFifo) {p : Nat}
    {c : ContextPush} {entry advanced : Nat} {characters : List UInt8}
    (hp : s.diagFifo.producer p = .context c entry advanced)
    (hprint : Printing d s.stream s.diagFifo.fifo.buffer c entry advanced characters) :
    ContextPush.CommitExact d.fifo s.diagFifo.fifo c.fifoPosStart c.fifoPosEnd := by
  obtain ⟨hstart, hend, hpos, hle, _⟩ := hinv.covers hp hprint.fits
  have hshort := hprint.short
  have hN : d.fifo.nElements = d.nElements := rfl
  have hlast := Cyclic.add_mod_eq entry (c.nObjects - 1) d.fifo.bufferSize (Nat.succ_pos _)
    (by unfold Geometry.bufferSize; omega)
  rw [← hend, ← hstart] at hlast
  have hlt : c.fifoPosStart < d.fifo.bufferSize := by
    rw [hstart]; exact Nat.mod_lt _ (Nat.succ_pos _)
  unfold Geometry.bufferSize at hlast hlt
  obtain ⟨bytes, hbytes⟩ := hmultiple
  unfold ContextPush.CommitExact
  by_cases hwrap : c.fifoPosStart ≤ c.fifoPosEnd
  · exact .inl hwrap
  · refine .inr ⟨by split at hlast <;> omega, fun slot hslot hbyte => ?_⟩
    rw [hN] at hbyte
    omega

-- Every part of a call, and of a pop, is a safe part of the FIFO's operations.
theorem Inv.safe_push (h : Inv d s) {p : Nat} {message : List UInt8}
    (hlen : Lengths d (.push p message)) :
    Fifo.Safe d.fifo s.diagFifo (.openPush p message.length) := by
  refine ⟨.inr ⟨hlen.1, ?_⟩, .inr ?_⟩
  · exact Nat.le_trans (Nat.le_add_right _ 8) hlen.2
  · have htail : s.diagFifo.fifo.tailReserved ≤ d.nElements := h.tracked.tail_le
    have harray := d.array
    have := hlen.2
    omega

theorem Inv.safe_output (h : Inv d s) {p : Nat} {character : UInt8} {characters : List UInt8}
    (hp : s.rest p = some (character :: characters)) :
    Fifo.Safe d.fifo s.diagFifo (.contextPush p character) := by
  obtain ⟨c, entry, advanced, hx, ⟨_, hnil⟩ | hprint⟩ := h.inside hp
  · cases hnil
  · refine ⟨?_, trivial⟩
    have htotal := hprint.total
    rw [List.length_cons] at htotal
    simp only [Fifo.Within, hx, Fifo.Producer.PushWithin]
    exact .inr (.inl (by omega))

theorem Inv.safe_close (h : Inv d s) (hmultiple : 8 ∣ d.nElements) {p : Nat}
    (hp : s.rest p = some []) : Fifo.Safe d.fifo s.diagFifo (.closePush p) := by
  obtain ⟨c, entry, advanced, hx, ⟨hover, _⟩ | hprint⟩ := h.inside hp
  · refine ⟨trivial, ?_⟩
    simp only [Fifo.Exact, hx, Fifo.Producer.CloseExact]
    exact .inl hover
  · refine ⟨trivial, ?_⟩
    simp only [Fifo.Exact, hx, Fifo.Producer.CloseExact]
    exact .inr (hprint.exact hmultiple h.fifo hx)

theorem pushStep_cases {p : Nat} {message : List UInt8} (h : pushStep d s p message = some t) :
    s.rest p = none ∧ ∃ diagFifo,
      Fifo.step d.fifo s.diagFifo (.openPush p message.length) = some diagFifo ∧
      ((ContextPush.construct d.fifo s.diagFifo.fifo message.length).2.isOverflow = true ∧
          t = { s with diagFifo := diagFifo, rest := Function.update s.rest p (some []) } ∨
        (ContextPush.construct d.fifo s.diagFifo.fifo message.length).2.isOverflow = false ∧
          t = { diagFifo := diagFifo, rest := Function.update s.rest p (some message)
                accepted := s.accepted ++ [message] }) := by
  unfold pushStep at h
  split at h
  · cases h
  · rename_i hp
    obtain ⟨diagFifo, hstep, rfl⟩ := Option.map_eq_some_iff.mp h
    refine ⟨hp, diagFifo, hstep, ?_⟩
    split
    · exact .inl ⟨‹_›, rfl⟩
    · exact .inr ⟨Bool.eq_false_of_not_eq_true ‹_›, rfl⟩

theorem outputStep_cases {p : Nat} (h : outputStep d s p = some t) :
    ∃ character characters diagFifo, s.rest p = some (character :: characters) ∧
      Fifo.step d.fifo s.diagFifo (.contextPush p character) = some diagFifo ∧
      t = { s with diagFifo := diagFifo, rest := Function.update s.rest p (some characters) } := by
  unfold outputStep at h
  split at h
  · rename_i hp
    obtain ⟨diagFifo, hstep, rfl⟩ := Option.map_eq_some_iff.mp h
    exact ⟨_, _, diagFifo, hp, hstep, rfl⟩
  · cases h

theorem closeStep_cases {p : Nat} (h : closeStep d s p = some t) :
    s.rest p = some [] ∧ ∃ diagFifo,
      Fifo.step d.fifo s.diagFifo (.closePush p) = some diagFifo ∧
      t = { s with diagFifo := diagFifo, rest := Function.update s.rest p none } := by
  unfold closeStep at h
  split at h
  · rename_i hp
    obtain ⟨diagFifo, hstep, rfl⟩ := Option.map_eq_some_iff.mp h
    exact ⟨hp, diagFifo, hstep, rfl⟩
  · cases h

theorem popStep_cases {e : Fifo.Event UInt8} (h : popStep d s e = some t) :
    ∃ diagFifo, Fifo.step d.fifo s.diagFifo e = some diagFifo ∧ t = { s with diagFifo := diagFifo } := by
  obtain ⟨diagFifo, hstep, rfl⟩ := Option.map_eq_some_iff.mp h
  exact ⟨diagFifo, hstep, rfl⟩

theorem caller_update {stream : List UInt8} {buffer : Nat → UInt8}
    {rest : Nat → Option (List UInt8)} {producer : Nat → Fifo.Producer UInt8} {p : Nat}
    {characters : Option (List UInt8)} {x : Fifo.Producer UInt8}
    (hself : Caller d stream buffer characters x)
    (hother : ∀ q, q ≠ p → Caller d stream buffer (rest q) (producer q)) (q : Nat) :
    Caller d stream buffer (Function.update rest p characters q) (Function.update producer p x q) := by
  by_cases hq : q = p
  · subst hq
    rw [Function.update_self, Function.update_self]
    exact hself
  · rw [Function.update_of_ne hq, Function.update_of_ne hq]
    exact hother q hq

theorem Inv.step_push (h : Inv d s) {p : Nat} {message : List UInt8}
    (hlen : Lengths d (.push p message)) (hstep : pushStep d s p message = some t) : Inv d t := by
  have hsafe := h.safe_push hlen
  obtain ⟨hp, diagFifo, hopen, hcase⟩ := pushStep_cases hstep
  have hfifo := h.fifo.step h.tracked hsafe hopen
  have htracked := h.tracked.step hsafe.1 hopen
  obtain ⟨_, _, rfl⟩ := Fifo.openPushStep_cases hopen
  rcases hcase with ⟨hover, rfl⟩ | ⟨hover, rfl⟩
  · -- nothing is reserved
    have hfull : s.diagFifo.fifo.isFullBy d.fifo message.length = true :=
      (ContextPush.construct_isOverflow _ _).symm.trans hover
    simp only [Fifo.construct_full d.fifo _ _ hfull, ite_true] at hfifo htracked ⊢
    exact ⟨hfifo, htracked, h.reserved, h.content,
      caller_update (.inl ⟨rfl, rfl⟩) fun q _ => h.caller q⟩
  · have hfull : s.diagFifo.fifo.isFullBy d.fifo message.length = false :=
      (ContextPush.construct_isOverflow _ _).symm.trans hover
    obtain ⟨hpos, hle⟩ := hsafe.1.resolve_left (by simp [hfull])
    have hsum := hsafe.2.resolve_left (by simp [hfull])
    obtain ⟨hring, _, hn, _, _⟩ :=
      Fifo.construct_fits d.fifo s.diagFifo.fifo hfull h.fifo.tail hpos hle hsum
    simp only [hring, hover, Bool.false_eq_true, ite_false] at hfifo htracked ⊢
    -- the stream grows behind what was reserved so far
    have hgrow : ∀ i, i < s.diagFifo.log.reserved →
        (s.accepted ++ [message]).flatten[i]? = s.stream[i]? := by
      intro i hi
      have hlt : i < s.accepted.flatten.length := h.reserved ▸ hi
      rw [List.flatten_append, List.getElem?_append_left hlt]
      rfl
    refine ⟨hfifo, htracked, ?_, ?_, caller_update ?_ ?_⟩
    · have hres := h.reserved
      unfold State.stream at hres
      simp [State.stream, Log.reserve, hres]
    · intro i hc
      have hlt := h.fifo.sound.committed_lt hc
      exact (h.content i hc).trans (hgrow i hlt).symm
    · refine .inr ⟨message, rfl, hover, ?_, ?_, fun k hk => ?_, fun k hk => ?_⟩
      · rw [hn]; exact hlen.2
      · rw [hn, Nat.zero_add]
      · cases hk
      · have hres := h.reserved
        unfold State.stream at hres ⊢
        rw [List.flatten_append, Nat.add_zero, hres, List.getElem?_append_right (by omega)]
        simp [hk]
    · intro q _
      exact (h.caller q).frame fun i hi => ⟨hgrow i (h.fifo.held q i hi).1, rfl⟩

theorem Inv.step_output (h : Inv d s) {p : Nat} (hstep : outputStep d s p = some t) : Inv d t := by
  obtain ⟨character, characters, diagFifo, hp, hpush, rfl⟩ := outputStep_cases hstep
  have hsafe := h.safe_output hp
  have hfifo := h.fifo.step h.tracked hsafe hpush
  have htracked := h.tracked.step hsafe.1 hpush
  obtain ⟨c, entry, advanced, hx, ⟨_, hnil⟩ | hprint⟩ := h.inside hp
  · cases hnil
  obtain ⟨c', entry', advanced', hx', rfl⟩ := Fifo.contextPushStep_cases hpush
  rw [hx] at hx'
  cases hx'
  have htotal := hprint.total
  rw [List.length_cons] at htotal
  have hstores := h.fifo.contextPush_stores h.tracked hx hprint.fits (by omega) character
  simp only [hstores] at hfifo htracked ⊢
  have hheld : ∀ k < c.nObjects, (s.diagFifo.producer p).Holds (entry + k) := by
    intro k hk
    rw [hx]
    exact ⟨hprint.fits, by omega, by omega⟩
  -- every other slot in use keeps its byte
  have hkeep : ∀ i, s.diagFifo.log.delivered.length ≤ i → i < s.diagFifo.log.reserved →
      i ≠ entry + advanced →
      (s.diagFifo.fifo.write [⟨(entry + advanced) % d.fifo.bufferSize, [character]⟩]).buffer
        (i % d.fifo.bufferSize) = s.diagFifo.fifo.buffer (i % d.fifo.bufferSize) := by
    intro i hi hi' hne
    apply Fifo.write_untouched
    intro insert hmem htouch
    obtain rfl := List.mem_singleton.mp hmem
    simp only [Insert.Touches, List.length_singleton] at htouch
    have hown := hheld advanced (by omega)
    exact hne (h.fifo.slot_inj hi hi' (h.fifo.held_ge hown) (h.fifo.held p _ hown).1 (by omega))
  refine ⟨hfifo, htracked, h.reserved, h.content, caller_update ?_ ?_⟩
  · refine .inr ⟨characters, rfl, hprint.fits, hprint.short, ?_, fun k hk => ?_, fun k hk => ?_⟩
    · show advanced + 1 + characters.length = c.nObjects
      omega
    · by_cases hlast : k = advanced
      · subst hlast
        rw [Fifo.write_one]
        exact hprint.left 0 (Nat.succ_pos _)
      · have hown := hheld k (by omega)
        rw [hkeep _ (h.fifo.held_ge hown) (h.fifo.held p _ hown).1 (by omega)]
        exact hprint.written k (by omega)
    · have hleft := hprint.left (k + 1) (Nat.succ_lt_succ hk)
      rwa [List.getElem_cons_succ, Nat.add_comm k 1, ← Nat.add_assoc] at hleft
  · intro q hq
    refine (h.caller q).frame fun i hi => ⟨rfl, hkeep i (h.fifo.held_ge hi) (h.fifo.held q i hi).1 ?_⟩
    rintro rfl
    exact hq (h.fifo.disjoint q p _ hi (hheld advanced (by omega)))

theorem Inv.step_close (h : Inv d s) (hmultiple : 8 ∣ d.nElements) {p : Nat}
    (hstep : closeStep d s p = some t) : Inv d t := by
  obtain ⟨hp, diagFifo, hclose, rfl⟩ := closeStep_cases hstep
  have hsafe := h.safe_close hmultiple hp
  have hfifo := h.fifo.step h.tracked hsafe hclose
  have htracked := h.tracked.step hsafe.1 hclose
  obtain ⟨c, entry, advanced, hx, hcase⟩ := h.inside hp
  obtain ⟨c', entry', advanced', hx', rfl⟩ := Fifo.closePushStep_cases hclose
  rw [hx] at hx'
  cases hx'
  have hbuffer : (c.destruct d.fifo s.diagFifo.fifo).buffer = s.diagFifo.fifo.buffer := by
    unfold ContextPush.destruct
    simp only
    split_ifs <;> rfl
  have hcallers : ∀ q, Caller d s.stream s.diagFifo.fifo.buffer (Function.update s.rest p none q)
      (Function.update s.diagFifo.producer p .idle q) := caller_update rfl fun q _ => h.caller q
  rcases hcase with ⟨hover, _⟩ | hprint
  · simp only [hover, ite_true] at hfifo htracked ⊢
    refine ⟨hfifo, htracked, h.reserved, h.content, ?_⟩
    simp only [hbuffer]
    exact hcallers
  · have htotal := hprint.total
    simp only [hprint.fits, Bool.false_eq_true, ite_false] at hfifo htracked ⊢
    refine ⟨hfifo, htracked, h.reserved, fun i hc => ?_, ?_⟩
    · by_cases hin : entry ≤ i ∧ i < entry + c.nObjects
      · obtain ⟨k, rfl⟩ := Nat.exists_eq_add_of_le hin.1
        have hwritten := hprint.written k (by simp only [List.length_nil] at htotal; omega)
        obtain ⟨hstart, _⟩ := h.fifo.covers hx hprint.fits
        rw [(Log.commit_inside s.diagFifo.log _ hin).1]
        unfold Fifo.contextContent
        rw [hstart, Nat.mod_add_mod, Nat.add_sub_cancel_left]
        exact hwritten.symm
      · obtain ⟨ho, hc'⟩ := Log.commit_outside s.diagFifo.log
          (Fifo.contextContent d.fifo s.diagFifo.fifo c entry) hin
        simp only [hc'] at hc
        simp only [ho]
        exact h.content i hc
    · simp only [hbuffer]
      exact hcallers

theorem Inv.step_pop (h : Inv d s) {e : Fifo.Event UInt8}
    (he : e = .popLook ∨ (∃ ch, e = .popRemove ch) ∨ e = .popAdvance)
    (hstep : popStep d s e = some t) : Inv d t := by
  obtain ⟨diagFifo, hpop, rfl⟩ := popStep_cases hstep
  have hsafe : Fifo.Safe d.fifo s.diagFifo e := by
    rcases he with rfl | ⟨ch, rfl⟩ | rfl <;> exact ⟨trivial, trivial⟩
  have hfifo := h.fifo.step h.tracked hsafe hpop
  have htracked := h.tracked.step hsafe.1 hpop
  rcases he with rfl | ⟨ch, rfl⟩ | rfl
  · obtain ⟨_, ⟨_, rfl⟩ | ⟨_, rfl⟩⟩ := Fifo.popLookStep_cases hpop <;>
      exact ⟨hfifo, htracked, h.reserved, h.content, h.caller⟩
  · obtain ⟨_, _, _, _, rfl⟩ := Fifo.popRemoveStep_cases hpop
    exact ⟨hfifo, htracked, h.reserved, h.content, h.caller⟩
  · obtain ⟨_, _, _, rfl⟩ := Fifo.popAdvanceStep_cases hpop
    exact ⟨hfifo, htracked, h.reserved, h.content, h.caller⟩

theorem Inv.step (h : Inv d s) (hmultiple : 8 ∣ d.nElements) {e : Event} (hlen : Lengths d e)
    (hstep : step d s e = some t) : Inv d t := by
  cases e with
  | push p message => exact h.step_push hlen hstep
  | output p => exact h.step_output hstep
  | close p => exact h.step_close hmultiple hstep
  | popLook => exact h.step_pop (.inl rfl) hstep
  | popRemove ch => exact h.step_pop (.inr (.inl ⟨ch, rfl⟩)) hstep
  | popAdvance => exact h.step_pop (.inr (.inr rfl)) hstep

theorem inv_start (buffer : Nat → UInt8) : Inv d (start buffer) where
  fifo := Fifo.inv_start buffer
  tracked := Fifo.tracked_start d.fifo buffer
  reserved := rfl
  content := by intro i hc; cases hc
  caller := fun _ => rfl

theorem inv_of_reachable (hmultiple : 8 ∣ d.nElements)
    (hs : (system d).ReachableBy (fun _ e => Lengths d e) s) : Inv d s :=
  hs.invariant (by rintro s ⟨buffer, rfl⟩; exact inv_start buffer)
    (fun _ _ _ h hlen hstep => h.step hmultiple hlen hstep)

theorem Inv.popped_initial (h : Inv d s) : s.popped <+: s.stream := by
  rw [List.prefix_iff_getElem?]
  intro i hi
  obtain ⟨hc, ho⟩ := h.fifo.sound.delivered i hi
  rw [← h.content i hc, ho]
  rfl

theorem rejected_iff {p : Nat} {c : ContextPush} {entry advanced : Nat}
    (hproducer : s.diagFifo.producer p = .context c entry advanced) : Rejected s p ↔ c.isOverflow = true := by
  constructor
  · rintro ⟨_, _, _, hcontext, hover⟩
    rw [hproducer] at hcontext
    cases hcontext
    exact hover
  · intro hover
    exact ⟨c, entry, advanced, hproducer, hover⟩

-- A reservation is refused exactly when the message does not fit, and a
-- refusal leaves the FIFO and the stream alone.
theorem Inv.push_outcome (h : Inv d s) {p : Nat} {message : List UInt8}
    (hlen : Lengths d (.push p message)) (hstep : pushStep d s p message = some t) :
    (Rejected t p ↔ s.free d < message.length) ∧
      (Rejected t p → t.diagFifo.fifo = s.diagFifo.fifo ∧ t.diagFifo.log = s.diagFifo.log ∧
        t.accepted = s.accepted) ∧
      (¬Rejected t p → t.accepted = s.accepted ++ [message]) := by
  have hle : message.length ≤ d.nElements := Nat.le_trans (Nat.le_add_right _ 8) hlen.2
  have hroom := h.isFullBy_iff hle
  rw [← ContextPush.construct_isOverflow] at hroom
  obtain ⟨_, diagFifo, hopen, hcase⟩ := pushStep_cases hstep
  obtain ⟨_, _, rfl⟩ := Fifo.openPushStep_cases hopen
  have hproducer : t.diagFifo.producer p = .context (ContextPush.construct d.fifo s.diagFifo.fifo
      message.length).2 s.diagFifo.log.reserved 0 := by
    rcases hcase with ⟨_, rfl⟩ | ⟨_, rfl⟩ <;> exact Function.update_self _ _ _
  have hrejected := rejected_iff hproducer
  refine ⟨hrejected.trans hroom, fun hrefused => ?_, fun hnot => ?_⟩
  · have hover := hrejected.mp hrefused
    have hfull : s.diagFifo.fifo.isFullBy d.fifo message.length = true :=
      (ContextPush.construct_isOverflow _ _).symm.trans hover
    obtain ⟨_, rfl⟩ := hcase.resolve_right fun hfits => absurd hover (ne_true_of_eq_false hfits.1)
    simp only [Fifo.construct_full d.fifo _ _ hfull, ite_true, and_self]
  · obtain ⟨_, rfl⟩ := hcase.resolve_left fun hover => hnot (hrejected.mpr hover.1)
    rfl

-- A rejected call only returns, and that changes nothing but its caller.
theorem Inv.rejected_quiet (h : Inv d s) {p : Nat} (hrejected : Rejected s p) :
    outputStep d s p = none ∧
      ∀ t, closeStep d s p = some t → t.diagFifo.fifo = s.diagFifo.fifo ∧
        t.diagFifo.log = s.diagFifo.log ∧ t.accepted = s.accepted := by
  obtain ⟨c, entry, advanced, hx, hover⟩ := hrejected
  have hcaller := h.caller p
  rw [hx] at hcaller
  have hrest : s.rest p = some [] := by
    rcases hcaller with ⟨_, hrest⟩ | ⟨_, _, hprint⟩
    · exact hrest
    · rw [hprint.fits] at hover
      cases hover
  refine ⟨by unfold outputStep; rw [hrest], fun t hstep => ?_⟩
  obtain ⟨_, diagFifo, hclose, rfl⟩ := closeStep_cases hstep
  obtain ⟨c', entry', advanced', hx', rfl⟩ := Fifo.closePushStep_cases hclose
  rw [hx] at hx'
  cases hx'
  simp [ContextPush.destruct, hover]

-- The bytes popped so far are a prefix of the accepted messages one after the
-- other; a message is rejected exactly when it is longer than the free slots,
-- and then it leaves no trace.
theorem diag_messages_whole (hmultiple : 8 ∣ d.nElements)
    (hs : (system d).ReachableBy (fun _ e => Lengths d e) s) :
    s.popped <+: s.accepted.flatten ∧
      (∀ p message t, Lengths d (.push p message) → (system d).step s (.push p message) = some t →
        (Rejected t p ↔ s.free d < message.length) ∧
          (Rejected t p → t.diagFifo.fifo = s.diagFifo.fifo ∧ t.diagFifo.log = s.diagFifo.log ∧
            t.accepted = s.accepted) ∧
          (¬Rejected t p → t.accepted = s.accepted ++ [message])) ∧
      ∀ p, Rejected s p → (system d).step s (.output p) = none ∧
        ∀ t, (system d).step s (.close p) = some t → t.diagFifo.fifo = s.diagFifo.fifo ∧
          t.diagFifo.log = s.diagFifo.log ∧ t.accepted = s.accepted := by
  have h := inv_of_reachable hmultiple hs
  exact ⟨h.popped_initial, fun p message t hlen hstep => h.push_outcome hlen hstep,
    fun p hrejected => h.rejected_quiet hrejected⟩

-- Two callers on a ring of sixteen bytes; the second one commits first.
def sixteen : Declaration := ⟨16, 0, by decide, by decide⟩

def twoMessages : List Event :=
  [.push 0 [72, 105], .push 1 [33], .output 0, .output 1, .close 1, .popLook, .output 0, .close 0,
    .popLook, .popRemove 0, .popAdvance, .popLook, .popRemove 0, .popAdvance, .popLook, .popRemove 0,
    .popAdvance]

theorem twoMessages_runs : ((system sixteen).runBy (fun _ e => Lengths sixteen e) (start fun _ => 0)
    twoMessages).isSome := by
  decide +kernel

theorem diag_messages_whole_run :
    ∃ s, (system sixteen).runBy (fun _ e => Lengths sixteen e) (start fun _ => 0) twoMessages = some s ∧
      s.accepted = [[72, 105], [33]] ∧ s.popped = [72, 105, 33] ∧ s.popped <+: s.accepted.flatten := by
  have hstart : (system sixteen).ReachableBy (fun _ e => Lengths sixteen e) (start fun _ => 0) :=
    .start ⟨_, rfl⟩
  obtain ⟨hinitial, _⟩ := diag_messages_whole (by decide) (hstart.after twoMessages twoMessages_runs)
  exact ⟨_, (Option.some_get twoMessages_runs).symm, by decide +kernel, by decide +kernel, hinitial⟩

end Diag

end Carbon
