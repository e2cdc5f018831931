import Carbon.Ethernet.Receive
import Mathlib.Data.Fintype.EquivFin
import Mathlib.Data.List.Perm.Lattice
import Mathlib.Tactic.SplitIfs

namespace Carbon

namespace Receive

variable {s t : State} {p c r : Pointer}

-- How many increments lead from one descriptor to another.
def distance (p r : Pointer) : Nat := (r - p).val

-- The descriptors from p on, up to and not including r.
def cyclic (p r : Pointer) : List Pointer := List.iterate increaseRxPointer p (distance p r)

def ringBuffers (s : State) : List Buffer :=
  (cyclic s.toProcess s.tail).map fun d => (s.desc d).buffer

-- No buffer is twice in the ring and the live pbufs.
def Exclusive (s : State) : Prop := (ringBuffers s ++ s.live).Nodup

structure Owned (s : State) : Prop where
  exclusive : Exclusive s
  clobbered : s.clobbered = false
  criticalError : s.criticalError = false

-- Where low_level_input sees that the DMA has left the descriptor, the descriptor
-- holds the buffer that was read from it before.
def UnchangedAt (s : State) : InputPc → Prop
  | .looked buffer _ => s.toProcess ≠ s.current → (s.desc s.toProcess).buffer = buffer
  | .wait | .drain | .passed _ _ | .discard _ | .discarding | .alloc _ | .deliver _ | .input _
  | .freeing _ => True

instance (s : State) : DecidablePred (UnchangedAt s)
  | .looked buffer _ =>
      inferInstanceAs (Decidable (s.toProcess ≠ s.current → (s.desc s.toProcess).buffer = buffer))
  | .wait | .drain | .passed _ _ | .discard _ | .discarding | .alloc _ | .deliver _ | .input _
  | .freeing _ => isTrue trivial

def Unchanged (s : State) : Event → Prop
  | .input => UnchangedAt s s.pc
  | .inputFailed | .free _ | .lock _ | .prepare | .poolFree _ | .dmaStore | .dmaComplete _
  | .isrRelease | .isrClear => True

instance (s : State) : DecidablePred (Unchanged s)
  | .input => inferInstanceAs (Decidable (UnchangedAt s s.pc))
  | .inputFailed | .free _ | .lock _ | .prepare | .poolFree _ | .dmaStore | .dmaComplete _
  | .isrRelease | .isrClear => isTrue trivial

theorem distance_self (p : Pointer) : distance p p = 0 := by
  revert p; decide

theorem distance_pos (h : p ≠ r) : 0 < distance p r := by
  revert p r; decide

theorem distance_from_increase (h : p ≠ r) : distance p r = distance (increaseRxPointer p) r + 1 := by
  revert p r; decide

theorem distance_to_increase (h : increaseRxPointer r ≠ p) :
    distance p (increaseRxPointer r) = distance p r + 1 := by
  revert p r; decide

theorem distance_inj (h : distance p c = distance p r) : c = r := by
  revert p c r; decide

theorem distance_full (h : increaseRxPointer r = p) : distance p r = 8 := by
  revert p r; decide

theorem iterate_distance (p r : Pointer) : increaseRxPointer^[distance p r] p = r := by
  revert p r; decide

theorem distance_iterate {k : Nat} (h : k < 9) : distance p (increaseRxPointer^[k] p) = k := by
  revert p; decide +revert

theorem cyclic_cons (h : p ≠ r) : cyclic p r = p :: cyclic (increaseRxPointer p) r := by
  unfold cyclic
  rw [distance_from_increase h]
  rfl

theorem cyclic_concat (h : increaseRxPointer r ≠ p) : cyclic p (increaseRxPointer r) = cyclic p r ++ [r] := by
  unfold cyclic
  rw [distance_to_increase h, List.iterate_add, iterate_distance]
  rfl

theorem not_mem_cyclic (p r : Pointer) : r ∉ cyclic p r := by
  intro hmem
  obtain ⟨k, hk, heq⟩ := List.mem_iterate.mp hmem
  have hlt : distance p r < 9 := (r - p).isLt
  have hdist : distance p r = k := by
    rw [heq]
    exact distance_iterate (hk.trans hlt)
  omega

theorem mem_cyclic (h : distance p c < distance p r) : c ∈ cyclic p r :=
  List.mem_iterate.mpr ⟨distance p c, h, (iterate_distance p c).symm⟩

def Stage.inHand : Stage → Bool
  | .done => false
  | .entered | .tailRead _ | .toProcessRead _ _ | .checked _ | .written _ | .error => true

def Holder.hand (holder : Holder) : List Buffer := if holder.stage.inHand then [holder.buffer] else []

def hand (s : State) : List Buffer :=
  match s.holder with
  | none => []
  | some holder => holder.hand

-- Where the buffers are: in the ring, in a live pbuf, or on their way back.
def places (s : State) : List Buffer := ringBuffers s ++ (s.live ++ (s.waiting ++ hand s))

-- The buffer low_level_input works on.
def InputPc.works : InputPc → Option Buffer
  | .passed buffer _ | .discard buffer | .alloc buffer | .deliver buffer => some buffer
  | .wait | .drain | .looked _ _ | .discarding | .input _ | .freeing _ => none

def StageOk (s : State) (holder : Holder) : Prop :=
  match holder.stage with
  | .entered | .done => True
  | .tailRead tail | .checked tail => tail = s.tail
  | .toProcessRead tail toProcess => tail = s.tail ∧ increaseRxPointer tail ≠ toProcess
  | .written tail => tail = s.tail ∧ (s.desc tail).buffer = holder.buffer
  | .error => False

-- Buffer 8 starts under the tail pointer and is in no place from then on. The
-- DMA stands between the descriptor to process and the tail.
structure Inv (s : State) : Prop where
  nodup : (8 :: places s).Nodup
  position : distance s.toProcess s.current ≤ distance s.toProcess s.tail
  works : ∀ buffer, s.pc.works = some buffer →
    s.toProcess ≠ s.current ∧ (s.desc s.toProcess).buffer = buffer
  holder : ∀ holder, s.holder = some holder → StageOk s holder
  clobbered : s.clobbered = false
  criticalError : s.criticalError = false

theorem Inv.owned (h : Inv s) : Owned s where
  exclusive := by
    have hsub : (ringBuffers s ++ s.live).Sublist (8 :: places s) :=
      (((List.sublist_append_left _ _).append_left _)).cons 8
    exact h.nodup.sublist hsub
  clobbered := h.clobbered
  criticalError := h.criticalError

-- While a buffer is in hand the ring has room for it.
theorem Inv.room (h : Inv s) {holder : Holder} (hholder : s.holder = some holder)
    (hhand : holder.stage.inHand = true) : increaseRxPointer s.tail ≠ s.toProcess := by
  intro hfull
  have hlen := h.nodup.length_le_card
  have hring : (ringBuffers s).length = 8 := by
    unfold ringBuffers cyclic
    rw [List.length_map, List.length_iterate, distance_full hfull]
  have hone : (hand s).length = 1 := by
    simp only [hand, hholder, Holder.hand, hhand, if_true, List.length_singleton]
  simp only [places, List.length_cons, List.length_append, hring, hone, Fintype.card_fin] at hlen
  omega

theorem Inv.behind (h : Inv s) (hne : s.current ≠ s.tail) :
    distance s.toProcess s.current < distance s.toProcess s.tail :=
  lt_of_le_of_ne h.position fun heq => hne (distance_inj heq)

theorem Inv.nonempty (h : Inv s) (hne : s.toProcess ≠ s.current) : s.toProcess ≠ s.tail := by
  intro heq
  have hpos := distance_pos hne
  have hle := h.position
  rw [← heq, distance_self] at hle
  omega

theorem ringBuffers_update (s : State) (d : Pointer) (desc : Descriptor)
    (hsame : d ∈ cyclic s.toProcess s.tail → desc.buffer = (s.desc d).buffer) :
    ((cyclic s.toProcess s.tail).map fun e => (Function.update s.desc d desc e).buffer) = ringBuffers s := by
  refine List.map_congr_left fun e he => ?_
  by_cases heq : e = d
  · subst heq
    rw [Function.update_self]
    exact hsame he
  · rw [Function.update_of_ne heq]

theorem places_deliver (hne : s.toProcess ≠ s.tail) {buffer : Buffer}
    (hbuffer : (s.desc s.toProcess).buffer = buffer) : (places (deliver s buffer)).Perm (places s) := by
  have hring : ringBuffers s = buffer :: ringBuffers (deliver s buffer) := by
    unfold ringBuffers
    rw [cyclic_cons hne, List.map_cons, hbuffer]
    rfl
  unfold places
  rw [hring]
  exact List.perm_middle

theorem places_discard (hne : s.toProcess ≠ s.tail) {buffer : Buffer}
    (hbuffer : (s.desc s.toProcess).buffer = buffer) (hfree : s.holder = none) :
    (places (discardDescriptor s buffer)).Perm (places s) := by
  have hring : ringBuffers s = buffer :: ringBuffers (discardDescriptor s buffer) := by
    unfold ringBuffers
    rw [cyclic_cons hne, List.map_cons, hbuffer]
    rfl
  have hhand : hand s = [] := by
    unfold hand
    rw [hfree]
  unfold places
  rw [hring, hhand, List.append_nil]
  show (ringBuffers (discardDescriptor s buffer) ++ (s.live ++ (s.waiting ++ [buffer]))).Perm _
  rw [← List.append_assoc s.live, ← List.append_assoc (ringBuffers _)]
  exact List.perm_append_singleton _ _

theorem places_free {buffer : Buffer} (hlive : buffer ∈ s.live) : (places (free s buffer)).Perm (places s) := by
  refine List.Perm.append_left (ringBuffers s) ?_
  show (s.live.erase buffer ++ (buffer :: s.waiting ++ hand s)).Perm (s.live ++ (s.waiting ++ hand s))
  rw [List.cons_append]
  exact List.perm_middle.trans ((List.perm_cons_erase hlive).symm.append_right _)

theorem places_lock {buffer : Buffer} (hwaiting : buffer ∈ s.waiting) (hfree : s.holder = none) :
    (places (lock s buffer)).Perm (places s) := by
  have hhand : hand s = [] := by
    unfold hand
    rw [hfree]
  refine List.Perm.append_left (ringBuffers s) (List.Perm.append_left s.live ?_)
  show (s.waiting.erase buffer ++ [buffer]).Perm (s.waiting ++ hand s)
  rw [hhand, List.append_nil]
  exact (List.perm_append_singleton _ _).trans (List.perm_cons_erase hwaiting).symm

theorem places_writeTail (h : Inv s) {holder : Holder} (hholder : s.holder = some holder) {tail : Pointer}
    (hstage : holder.stage = .written tail) : (places (writeTail s holder tail)).Perm (places s) := by
  have hroom := h.room hholder (by rw [hstage]; rfl)
  obtain ⟨htail, hbuffer⟩ : tail = s.tail ∧ (s.desc tail).buffer = holder.buffer := by
    have hok := h.holder holder hholder
    unfold StageOk at hok
    rwa [hstage] at hok
  have hring : ringBuffers (writeTail s holder tail) = ringBuffers s ++ [holder.buffer] := by
    show (cyclic s.toProcess (increaseRxPointer tail)).map _ = _
    rw [htail] at hbuffer ⊢
    rw [cyclic_concat hroom, List.map_append, List.map_singleton, ← hbuffer]
    rfl
  have hhand : hand s = [holder.buffer] := by
    simp only [hand, hholder, Holder.hand, hstage, Stage.inHand, if_true]
  have hnone : hand (writeTail s holder tail) = [] := rfl
  show (ringBuffers (writeTail s holder tail) ++ (s.live ++ (s.waiting ++ hand (writeTail s holder tail)))).Perm
    (ringBuffers s ++ (s.live ++ (s.waiting ++ hand s)))
  rw [hring, hhand, hnone, List.append_nil, List.append_assoc, ← List.append_assoc s.live]
  exact List.Perm.append_left _ (List.perm_append_singleton _ _).symm

-- Steps that leave the descriptors, the pointers and the buffers where they are.
theorem Inv.relabel (h : Inv s) {pc : InputPc} {returning : List Buffer} {poolUsed : Nat}
    {ri isrReleased token : Bool}
    (hworks : ∀ buffer, pc.works = some buffer →
      s.toProcess ≠ s.current ∧ (s.desc s.toProcess).buffer = buffer) :
    Inv { s with pc, returning, poolUsed, ri, isrReleased, token } where
  nodup := h.nodup
  position := h.position
  works := hworks
  holder := h.holder
  clobbered := h.clobbered
  criticalError := h.criticalError

theorem judge_works {desc3 : BitVec 32} {buffer other : Buffer} {length : Nat}
    (h : (judge desc3 buffer length).works = some other) : other = buffer := by
  unfold judge at h
  split_ifs at h <;> cases h <;> rfl

-- The descriptor to process moves on past the descriptor of the buffer.
theorem Inv.advance (h : Inv s) (hne : s.toProcess ≠ s.current) :
    distance (increaseRxPointer s.toProcess) s.current ≤ distance (increaseRxPointer s.toProcess) s.tail := by
  have hle := h.position
  rw [distance_from_increase hne, distance_from_increase (h.nonempty hne)] at hle
  omega

theorem Inv.deliver (h : Inv s) {buffer : Buffer} (hne : s.toProcess ≠ s.current)
    (hbuffer : (s.desc s.toProcess).buffer = buffer) : Inv (deliver s buffer) where
  nodup := ((places_deliver (h.nonempty hne) hbuffer).cons 8).nodup_iff.mpr h.nodup
  position := h.advance hne
  works := nofun
  holder := h.holder
  clobbered := h.clobbered
  criticalError := h.criticalError

theorem Inv.discard (h : Inv s) {buffer : Buffer} (hne : s.toProcess ≠ s.current)
    (hbuffer : (s.desc s.toProcess).buffer = buffer) (hfree : s.holder = none) :
    Inv (discardDescriptor s buffer) where
  nodup := ((places_discard (h.nonempty hne) hbuffer hfree).cons 8).nodup_iff.mpr h.nodup
  position := h.advance hne
  works := nofun
  holder := by
    rintro holder ⟨⟩
    trivial
  clobbered := h.clobbered
  criticalError := h.criticalError

theorem Inv.inputStep (h : Inv s) (hok : Unchanged s .input) (hstep : inputStep s = some t) : Inv t := by
  unfold Receive.inputStep at hstep
  unfold Unchanged at hok
  cases hpc : s.pc with
  | discarding | freeing => rw [hpc] at hstep; cases hstep
  | wait =>
      rw [hpc] at hstep
      obtain ⟨_, hstep⟩ := Option.ite_none_right_eq_some.mp hstep
      cases hstep
      exact h.relabel nofun
  | drain | input =>
      rw [hpc] at hstep
      cases hstep
      exact h.relabel nofun
  | looked buffer length =>
      rw [hpc] at hstep hok
      cases hstep
      refine h.relabel fun other hother => ?_
      split at hother
      · cases hother
      · rename_i hne
        cases hother
        exact ⟨hne, hok hne⟩
  | passed buffer length =>
      rw [hpc] at hstep
      cases hstep
      refine h.relabel fun other hother => ?_
      rw [judge_works hother]
      exact h.works buffer (by rw [hpc]; rfl)
  | discard buffer =>
      rw [hpc] at hstep
      obtain ⟨hfree, hstep⟩ := Option.ite_none_right_eq_some.mp hstep
      cases hstep
      obtain ⟨hne, hbuffer⟩ := h.works buffer (by rw [hpc]; rfl)
      exact h.discard hne hbuffer hfree
  | alloc buffer =>
      rw [hpc] at hstep
      cases hstep
      unfold Receive.alloc
      split
      · exact h.relabel nofun
      · refine h.relabel fun other hother => ?_
        cases hother
        exact h.works buffer (by rw [hpc]; rfl)
  | deliver buffer =>
      rw [hpc] at hstep
      cases hstep
      obtain ⟨hne, hbuffer⟩ := h.works buffer (by rw [hpc]; rfl)
      exact h.deliver hne hbuffer

theorem Inv.free (h : Inv s) {buffer : Buffer} (hlive : buffer ∈ s.live) : Inv (free s buffer) where
  nodup := ((places_free hlive).cons 8).nodup_iff.mpr h.nodup
  position := h.position
  works := h.works
  holder := h.holder
  clobbered := h.clobbered
  criticalError := h.criticalError

theorem Inv.lock (h : Inv s) {buffer : Buffer} (hwaiting : buffer ∈ s.waiting) (hfree : s.holder = none) :
    Inv (lock s buffer) where
  nodup := ((places_lock hwaiting hfree).cons 8).nodup_iff.mpr h.nodup
  position := h.position
  works := h.works
  holder := by
    rintro holder ⟨⟩
    trivial
  clobbered := h.clobbered
  criticalError := h.criticalError

theorem Inv.reach (h : Inv s) {holder : Holder} (hholder : s.holder = some holder)
    (hhand : holder.stage.inHand = true) {stage : Stage} (hstage : stage.inHand = true)
    (hok : StageOk s { holder with stage }) : Inv (reach s holder stage) where
  nodup := by
    have hsame : hand (Receive.reach s holder stage) = hand s := by
      simp only [hand, Receive.reach, hholder, Holder.hand, hhand, hstage]
    have hplaces : places (Receive.reach s holder stage) = places s := by
      unfold places
      rw [hsame]
      rfl
    rw [hplaces]
    exact h.nodup
  position := h.position
  works := h.works
  holder := by
    rintro _ ⟨⟩
    exact hok
  clobbered := h.clobbered
  criticalError := h.criticalError

-- The ring has room behind the tail, so neither pointer is there.
theorem Inv.checkPointers (h : Inv s) {holder : Holder} (hholder : s.holder = some holder)
    {tail toProcess : Pointer} (hstage : holder.stage = .toProcessRead tail toProcess) :
    Inv (checkPointers s holder tail toProcess) := by
  have hhand : holder.stage.inHand = true := by rw [hstage]; rfl
  have hroom := h.room hholder hhand
  obtain ⟨htail, hread⟩ : tail = s.tail ∧ increaseRxPointer tail ≠ toProcess := by
    have hok := h.holder holder hholder
    unfold StageOk at hok
    rwa [hstage] at hok
  have hcurrent : s.current ≠ increaseRxPointer tail := by
    intro heq
    have hle := h.position
    rw [heq, htail, distance_to_increase hroom] at hle
    omega
  unfold Receive.checkPointers
  rw [if_neg (not_or.mpr ⟨hcurrent, hread.symm⟩)]
  exact h.reach hholder hhand rfl htail

theorem Inv.writeDesc (h : Inv s) {holder : Holder} (hholder : s.holder = some holder) {tail : Pointer}
    (hstage : holder.stage = .checked tail) : Inv (writeDesc s holder tail) := by
  have htail : tail = s.tail := by
    have hok := h.holder holder hholder
    unfold StageOk at hok
    rwa [hstage] at hok
  subst htail
  have hwritten : Inv { s with desc := Function.update s.desc s.tail (prepareRxDesc holder.buffer) } :=
    { nodup := by
        have hring := ringBuffers_update s s.tail (prepareRxDesc holder.buffer) fun hmem =>
          absurd hmem (not_mem_cyclic s.toProcess s.tail)
        unfold places ringBuffers
        dsimp only
        rw [hring]
        exact h.nodup
      position := h.position
      works := fun buffer hbuffer => by
        obtain ⟨hne, hsame⟩ := h.works buffer hbuffer
        refine ⟨hne, ?_⟩
        dsimp only
        rw [Function.update_of_ne (h.nonempty hne)]
        exact hsame
      holder := fun other hother => by
        rw [hholder] at hother
        cases hother
        unfold StageOk
        rw [hstage]
      clobbered := h.clobbered
      criticalError := h.criticalError }
  refine hwritten.reach hholder (by rw [hstage]; rfl) rfl ⟨rfl, ?_⟩
  dsimp only
  rw [Function.update_self]
  rfl

theorem Inv.writeTail (h : Inv s) {holder : Holder} (hholder : s.holder = some holder) {tail : Pointer}
    (hstage : holder.stage = .written tail) : Inv (writeTail s holder tail) where
  nodup := ((places_writeTail h hholder hstage).cons 8).nodup_iff.mpr h.nodup
  position := by
    have htail : tail = s.tail := by
      have hok := h.holder holder hholder
      unfold StageOk at hok
      rw [hstage] at hok
      exact hok.1
    have hroom := h.room hholder (by rw [hstage]; rfl)
    show distance s.toProcess s.current ≤ distance s.toProcess (increaseRxPointer tail)
    rw [htail, distance_to_increase hroom]
    exact Nat.le_succ_of_le h.position
  works := h.works
  holder := by
    rintro _ ⟨⟩
    trivial
  clobbered := h.clobbered
  criticalError := h.criticalError

theorem Inv.unlock (h : Inv s) {holder : Holder} (hholder : s.holder = some holder)
    (hstage : holder.stage = .done) : Inv (unlock s holder) := by
  have hfree : Inv { s with holder := none } :=
    { nodup := by
        have hhand : hand s = [] := by
          simp only [hand, hholder, Holder.hand, hstage, Stage.inHand]
          rfl
        have hnodup := h.nodup
        unfold places at hnodup
        rw [hhand] at hnodup
        exact hnodup
      position := h.position
      works := h.works
      holder := nofun
      clobbered := h.clobbered
      criticalError := h.criticalError }
  unfold Receive.unlock
  split
  · exact hfree.relabel nofun
  · exact hfree.relabel h.works

theorem Inv.prepareStep (h : Inv s) (hstep : prepareStep s = some t) : Inv t := by
  unfold Receive.prepareStep at hstep
  cases hholder : s.holder with
  | none => rw [hholder] at hstep; cases hstep
  | some holder =>
      rw [hholder] at hstep
      have hok := h.holder holder hholder
      unfold StageOk at hok
      cases hstage : holder.stage with
      | error => rw [hstage] at hok; exact absurd hok id
      | entered =>
          simp only [hstage, Option.some.injEq] at hstep
          subst hstep
          exact h.reach hholder (by rw [hstage]; rfl) rfl rfl
      | tailRead tail =>
          simp only [hstage, Option.some.injEq] at hstep hok
          subst hstep
          have hroom := h.room hholder (by rw [hstage]; rfl)
          exact h.reach hholder (by rw [hstage]; rfl) rfl ⟨hok, hok ▸ hroom⟩
      | toProcessRead tail toProcess =>
          simp only [hstage, Option.some.injEq] at hstep
          subst hstep
          exact h.checkPointers hholder hstage
      | checked tail =>
          simp only [hstage, Option.some.injEq] at hstep
          subst hstep
          exact h.writeDesc hholder hstage
      | written tail =>
          simp only [hstage, Option.some.injEq] at hstep
          subst hstep
          exact h.writeTail hholder hstage
      | done =>
          simp only [hstage, Option.some.injEq] at hstep
          subst hstep
          exact h.unlock hholder hstage

-- What the DMA writes lies in the ring.
theorem Inv.store (h : Inv s) (hne : s.current ≠ s.tail) : Inv (store s) where
  nodup := h.nodup
  position := h.position
  works := h.works
  holder := h.holder
  clobbered := by
    have hmem : (s.desc s.current).buffer ∈ ringBuffers s :=
      List.mem_map_of_mem (f := fun d => (s.desc d).buffer) (mem_cyclic (h.behind hne))
    have hnot : (s.desc s.current).buffer ∉ s.live := fun hlive =>
      (List.nodup_append.mp h.owned.exclusive).2.2 _ hmem _ hlive rfl
    unfold Receive.store
    dsimp only
    rw [h.clobbered, decide_eq_false hnot]
    rfl
  criticalError := h.criticalError

theorem complete_buffer (s : State) (status : BitVec 32) (d : Pointer) :
    ((complete s status).desc d).buffer = (s.desc d).buffer := by
  unfold complete
  dsimp only
  by_cases heq : d = s.current
  · rw [heq, Function.update_self]
  · rw [Function.update_of_ne heq]

theorem Inv.complete (h : Inv s) (status : BitVec 32) (hne : s.current ≠ s.tail) : Inv (complete s status) := by
  have hbehind := h.behind hne
  have hnext : increaseRxPointer s.current ≠ s.toProcess := by
    intro heq
    have hfull := distance_full heq
    have hlt : distance s.toProcess s.tail < 9 := (s.tail - s.toProcess).isLt
    omega
  have hring : ringBuffers (Receive.complete s status) = ringBuffers s :=
    List.map_congr_left fun d _ => complete_buffer s status d
  exact
    { nodup := by
        unfold places
        rw [hring]
        exact h.nodup
      position := by
        show distance s.toProcess (increaseRxPointer s.current) ≤ distance s.toProcess s.tail
        rw [distance_to_increase hnext]
        exact hbehind
      works := fun buffer hbuffer =>
        ⟨hnext.symm, (complete_buffer s status s.toProcess).trans (h.works buffer hbuffer).2⟩
      holder := fun holder hholder => by
        have hok := h.holder holder hholder
        unfold StageOk at hok ⊢
        cases hstage : holder.stage with
        | entered | done => trivial
        | error => rw [hstage] at hok; exact hok
        | tailRead | toProcessRead | checked => simp only [hstage] at hok ⊢; exact hok
        | written tail =>
            simp only [hstage] at hok ⊢
            exact ⟨hok.1, (complete_buffer s status tail).trans hok.2⟩
      clobbered := (h.store hne).clobbered
      criticalError := h.criticalError }

theorem current_ne_of_runs (h : dmaRuns s = true) : s.current ≠ s.tail :=
  of_decide_eq_true (Bool.and_eq_true_iff.mp h).1

theorem Inv.step (h : Inv s) {e : Event} (hok : Unchanged s e) (hstep : Receive.step s e = some t) : Inv t := by
  have hcases := step_cases hstep
  cases e with
  | input => exact h.inputStep hok hcases.2
  | prepare => exact h.prepareStep hcases.2
  | inputFailed =>
      obtain ⟨_, buffer, _, hlive, rfl⟩ := hcases
      exact (h.free hlive).relabel nofun
  | free buffer =>
      obtain ⟨_, hlive, rfl⟩ := hcases
      exact h.free hlive
  | lock buffer =>
      obtain ⟨_, hfree, hwaiting, rfl⟩ := hcases
      exact h.lock hwaiting hfree
  | poolFree buffer =>
      obtain ⟨_, _, rfl⟩ := hcases
      refine h.relabel fun other hother => ?_
      split at hother
      · cases hother
      · exact h.works other hother
  | dmaStore =>
      obtain ⟨hruns, rfl⟩ := hcases
      exact h.store (current_ne_of_runs hruns)
  | dmaComplete status =>
      obtain ⟨hruns, rfl⟩ := hcases
      exact h.complete status (current_ne_of_runs hruns)
  | isrRelease =>
      obtain ⟨_, _, rfl⟩ := hcases
      exact h.relabel h.works
  | isrClear =>
      obtain ⟨_, rfl⟩ := hcases
      exact h.relabel h.works

theorem inv_start : Inv start where
  nodup := by decide
  position := by decide
  works := nofun
  holder := nofun
  clobbered := rfl
  criticalError := rfl

theorem inv_of_reachable (hs : system.ReachableBy Unchanged s) : Inv s := by
  refine hs.invariant (P := Inv) ?_ fun s e t h hok hstep => h.step hok hstep
  rintro s rfl
  exact inv_start

-- In a run in which low_level_input goes on only with the buffer its descriptor
-- still holds, the ring and the live pbufs share no buffer, the DMA writes into no
-- live pbuf, and the checks of the pointers never fail.
theorem ring_owned (hs : system.ReachableBy Unchanged s) : Owned s :=
  (inv_of_reachable hs).owned

-- No descriptor is written between the first two reads of low_level_input.
def Uninterrupted (s : State) : Event → Prop
  | .prepare => ∀ buffer length, s.pc ≠ .looked buffer length
  | .input | .inputFailed | .free _ | .lock _ | .poolFree _ | .dmaStore | .dmaComplete _
  | .isrRelease | .isrClear => True

-- The buffer that was read is the one of the descriptor.
def Looked (s : State) : Prop :=
  ∀ buffer length, s.pc = .looked buffer length → (s.desc s.toProcess).buffer = buffer

theorem Looked.inputStep (hstep : inputStep s = some t) : Looked t := by
  intro buffer length hlooked
  unfold Receive.inputStep at hstep
  cases hpc : s.pc with
  | discarding | freeing => rw [hpc] at hstep; cases hstep
  | wait =>
      rw [hpc] at hstep
      obtain ⟨_, hstep⟩ := Option.ite_none_right_eq_some.mp hstep
      cases hstep
      cases hlooked
  | drain =>
      rw [hpc] at hstep
      cases hstep
      cases hlooked
      rfl
  | looked =>
      rw [hpc] at hstep
      cases hstep
      dsimp only at hlooked
      split at hlooked <;> cases hlooked
  | passed =>
      rw [hpc] at hstep
      cases hstep
      dsimp only [judge] at hlooked
      split_ifs at hlooked
  | discard =>
      rw [hpc] at hstep
      obtain ⟨_, hstep⟩ := Option.ite_none_right_eq_some.mp hstep
      cases hstep
      cases hlooked
  | alloc =>
      rw [hpc] at hstep
      cases hstep
      unfold Receive.alloc at hlooked
      split at hlooked <;> cases hlooked
  | deliver | input =>
      rw [hpc] at hstep
      cases hstep
      cases hlooked

theorem prepareStep_pc (hstep : prepareStep s = some t) : t.pc = s.pc ∨ t.pc = .wait := by
  unfold Receive.prepareStep at hstep
  cases hholder : s.holder with
  | none => rw [hholder] at hstep; cases hstep
  | some holder =>
      obtain ⟨buffer, discard, stage⟩ := holder
      rw [hholder] at hstep
      cases stage with
      | error => cases hstep
      | entered | tailRead | checked | written => cases hstep; exact .inl rfl
      | toProcessRead tail toProcess =>
          cases hstep
          dsimp only [checkPointers]
          split <;> exact .inl rfl
      | done =>
          cases hstep
          cases discard with
          | false => exact .inl rfl
          | true => exact .inr rfl

theorem Looked.step (h : Looked s) {e : Event} (hok : Uninterrupted s e) (hstep : Receive.step s e = some t) :
    Looked t := by
  have hcases := step_cases hstep
  cases e with
  | input => exact Looked.inputStep hcases.2
  | inputFailed =>
      obtain ⟨_, buffer, _, _, rfl⟩ := hcases
      exact nofun
  | free buffer =>
      obtain ⟨_, _, rfl⟩ := hcases
      exact h
  | lock buffer =>
      obtain ⟨_, _, _, rfl⟩ := hcases
      exact h
  | prepare =>
      intro buffer length hlooked
      rcases prepareStep_pc hcases.2 with hsame | hwait
      · exact absurd (hsame.symm.trans hlooked) (hok buffer length)
      · rw [hwait] at hlooked
        cases hlooked
  | poolFree buffer =>
      obtain ⟨_, _, rfl⟩ := hcases
      intro other length hlooked
      dsimp only [poolFree] at hlooked
      split at hlooked
      · cases hlooked
      · exact h other length hlooked
  | dmaStore =>
      obtain ⟨_, rfl⟩ := hcases
      exact h
  | dmaComplete status =>
      obtain ⟨_, rfl⟩ := hcases
      exact fun buffer length hlooked =>
        (complete_buffer s status s.toProcess).trans (h buffer length hlooked)
  | isrRelease =>
      obtain ⟨_, _, rfl⟩ := hcases
      exact h
  | isrClear =>
      obtain ⟨_, rfl⟩ := hcases
      exact h

-- So the ring is owned as long as no thread writes a descriptor in between.
theorem owned_of_uninterrupted (hs : system.ReachableBy Uninterrupted s) : Owned s := by
  have hlooked : ∀ s, system.ReachableBy Uninterrupted s → Looked s := fun s hs =>
    hs.invariant (P := Looked) (by rintro s rfl; exact nofun) fun s e t h hok hstep => h.step hok hstep
  refine (inv_of_reachable (hs.strengthen hlooked fun s e h _ => ?_)).owned
  cases e with
  | input =>
      show UnchangedAt s s.pc
      cases hpc : s.pc with
      | looked buffer length => exact fun _ => h buffer length hpc
      | wait | drain | passed | discard | discarding | alloc | deliver | input | freeing => trivial
  | inputFailed | free | lock | prepare | poolFree | dmaStore | dmaComplete | isrRelease | isrClear => trivial

-- All eight buffers of the ring are in live pbufs when low_level_input reads the
-- descriptor under the tail pointer, and one of them comes back through it: the
-- descriptor is armed and completed with another buffer before its owner is looked
-- at, and the buffer read first is delivered a second time.
theorem stale_buffer_delivered : ¬∀ s, system.Reachable s → Owned s := by
  intro h
  have hreach := Transition.System.ReachableBy.get system (fun _ _ => True)
    (List.flatten [List.replicate 8 (.dmaComplete 0x3000003C#32), [.isrRelease, .isrClear],
      List.replicate 49 .input, [.free 0, .lock 0], List.replicate 6 .prepare,
      [.poolFree 0, .dmaComplete 0x3000003C#32], List.replicate 7 .input, [.free 1, .lock 1],
      List.replicate 6 .prepare, [.poolFree 1, .dmaComplete 0x3000003C#32], List.replicate 4 .input])
    (s := start) rfl (by decide +kernel)
  have hexclusive := (h _ hreach).exclusive
  revert hexclusive
  unfold Exclusive
  decide +kernel

theorem ring_owned_run : ∃ s : State, s.toProcess = 2 ∧ s.tail = 1 ∧ s.live = [] ∧ Owned s :=
  have hreach := Transition.System.ReachableBy.get system Unchanged
    (List.flatten [[.dmaComplete 0x3000003C#32, .dmaStore, .dmaComplete 0x4000003C#32, .isrRelease, .isrClear],
      List.replicate 11 .input, List.replicate 6 .prepare, [.free 0, .lock 0], List.replicate 6 .prepare,
      [.poolFree 0]])
    (s := start) rfl (by decide +kernel)
  ⟨_, rfl, rfl, rfl, ring_owned hreach⟩

end Receive

end Carbon
