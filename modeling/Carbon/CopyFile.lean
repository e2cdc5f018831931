import Carbon.BootScript

namespace Carbon

namespace CopyFile

open BootScript (FResult ReadResult fRead)

def bufLen : Nat := 2048

-- How many bytes an f_write takes at most, with or without an error.
inductive WriteResult
  | ok (limit : Nat)
  | error (code limit : Nat)

-- The outcomes of the calls; `allocated` is whether pvPortMalloc returned a
-- buffer. The two paths name different files, and f_close does not fail.
structure Input where
  source : List UInt8
  destination : List UInt8
  allocated : Bool
  openSource : FResult
  openDestination : FResult
  reads : Nat → ReadResult
  writes : Nat → WriteResult

inductive Release
  | closeSource
  | closeDestination
  | freeBuffer
  deriving DecidableEq

-- The destination file, what was released so far, and whether something was
-- stored through a buffer that had not been allocated.
structure State where
  destination : List UInt8
  releases : List Release
  stray : Bool

-- bw and the file after an f_write of these bytes.
def fWrite (file bytes : List UInt8) : WriteResult → FResult × Nat × List UInt8
  | .ok limit => (.ok, min limit bytes.length, file ++ bytes.take limit)
  | .error code limit => (.error code, min limit bytes.length, file ++ bytes.take limit)

def State.release (s : State) (released : Release) : State := { s with releases := s.releases ++ [released] }

-- What an f_read leaves in the buffer.
def store (x : Input) (s : State) (bytes : List UInt8) : State :=
  { s with stray := s.stray || (!x.allocated && !bytes.isEmpty) }

-- The fuel bounds the calls of f_read; fptr is how much of the source they have
-- read. f_write takes the bytes that f_read has just stored.
def copyLoop (x : Input) : Nat → Nat → Nat → State → Option (FResult × State)
  | 0, _, _, _ => none
  | fuel + 1, i, fptr, s =>
      match fRead x.source fptr bufLen (x.reads i) with
      | (.error code, bytes) => some (.error code, store x s bytes)
      | (.ok, bytes) =>
          if bytes.length = 0 then some (.ok, store x s bytes)
          else
            match fWrite s.destination bytes (x.writes i) with
            | (.error code, _, file) => some (.error code, { store x s bytes with destination := file })
            | (.ok, bw, file) =>
                if bw < bytes.length then some (.ok, { store x s bytes with destination := file })
                else copyLoop x fuel (i + 1) (fptr + bytes.length) { store x s bytes with destination := file }

-- The destination is opened with FA_CREATE_ALWAYS.
def copyFile (x : Input) (fuel : Nat) : Option (FResult × State) :=
  let s : State := ⟨x.destination, [], false⟩
  match x.openSource with
  | .error code => some (.error code, s.release .freeBuffer)
  | .ok =>
      match x.openDestination with
      | .error code => some (.error code, s.release .freeBuffer)
      | .ok =>
          (copyLoop x fuel 0 0 { s with destination := [] }).map fun (fr, s) =>
            (fr, ((s.release .closeSource).release .closeDestination).release .freeBuffer)

-- Every call succeeds in full.
structure Input.InFull (x : Input) : Prop where
  allocated : x.allocated = true
  openSource : x.openSource = .ok
  openDestination : x.openDestination = .ok
  reads : ∀ i, ∃ limit, bufLen ≤ limit ∧ x.reads i = .ok limit
  writes : ∀ i, ∃ limit, bufLen ≤ limit ∧ x.writes i = .ok limit

-- The result is true, and everything that was taken has been released once.
structure Truthful (x : Input) (fr : FResult) (s : State) : Prop where
  inside : s.stray = false
  complete : fr = .ok → s.destination = x.source
  succeeds : x.InFull → fr = .ok
  sourceClosed : s.releases.count .closeSource = if x.openSource = .ok then 1 else 0
  destinationClosed : s.releases.count .closeDestination =
    if x.openSource = .ok ∧ x.openDestination = .ok then 1 else 0
  bufferFreed : s.releases.count .freeBuffer = 1

def Copied (x : Input) : Prop := ∃ fuel fr s, copyFile x fuel = some (fr, s) ∧ Truthful x fr s

-- What the i-th f_read brings, if all before it were written in full.
def Input.chunk (x : Input) (i fptr : Nat) : List UInt8 := (fRead x.source fptr bufLen (x.reads i)).2

def Input.position (x : Input) : Nat → Nat
  | 0 => 0
  | i + 1 => x.position i + (x.chunk i (x.position i)).length

def Input.received (x : Input) (i : Nat) : List UInt8 := x.chunk i (x.position i)

-- A round that reads something and writes all of it.
structure Whole (x : Input) (i : Nat) : Prop where
  read : (x.reads i).isOk = true
  received : x.received i ≠ []
  written : ∃ limit, x.writes i = .ok limit ∧ (x.received i).length ≤ limit

-- A round that ends the loop without an error and before its time: nothing is
-- read though the source goes on, or not everything is written.
inductive Misleading (x : Input) (i : Nat) : Prop
  | read : (x.reads i).isOk = true → x.received i = [] → x.position i ≠ x.source.length → Misleading x i
  | write (limit : Nat) : (x.reads i).isOk = true → x.writes i = .ok limit → limit < (x.received i).length →
      Misleading x i

-- The source is not opened; or the destination is, too, the loop does not end in
-- such a round, and without a buffer the first f_read stores nothing.
def Undisturbed (x : Input) : Prop :=
  x.openSource ≠ .ok ∨ x.openDestination = .ok ∧ (x.allocated = true ∨ x.received 0 = []) ∧
    ∀ k, (∀ i < k, Whole x i) → ¬Misleading x k

variable {x : Input} {s t : State} {fuel i k : Nat}

theorem isOk_iff : (x.reads i).isOk = true ↔ ∃ limit, x.reads i = .ok limit := by
  cases x.reads i <;> simp [ReadResult.isOk]

-- Without an error the next bytes of the source are read.
theorem received_eq {limit : Nat} (hread : x.reads i = .ok limit) :
    x.received i = (x.source.drop (x.position i)).take (min limit bufLen) := by
  unfold Input.received Input.chunk
  rw [hread]
  rfl

theorem fRead_ok (hok : (x.reads i).isOk = true) :
    fRead x.source (x.position i) bufLen (x.reads i) = (.ok, x.received i) := by
  obtain ⟨limit, hread⟩ := isOk_iff.mp hok
  unfold Input.received Input.chunk
  rw [hread]
  rfl

theorem fRead_error {code : Nat} {copied : List UInt8} (hread : x.reads i = .error code copied) :
    fRead x.source (x.position i) bufLen (x.reads i) = (.error code, x.received i) := by
  unfold Input.received Input.chunk
  rw [hread]
  rfl

theorem length_received_le (hok : (x.reads i).isOk = true) :
    (x.received i).length ≤ x.source.length - x.position i ∧ (x.received i).length ≤ bufLen := by
  obtain ⟨limit, hread⟩ := isOk_iff.mp hok
  rw [received_eq hread, List.length_take, List.length_drop]
  omega

-- The destination after a round is a longer prefix of the source.
theorem take_received (hok : (x.reads i).isOk = true) {count : Nat} (hcount : count ≤ (x.received i).length) :
    x.source.take (x.position i) ++ (x.received i).take count = x.source.take (x.position i + count) := by
  obtain ⟨limit, hread⟩ := isOk_iff.mp hok
  rw [received_eq hread] at hcount ⊢
  rw [List.take_take, List.take_add]
  congr 1
  apply List.take_eq_take_iff.mpr
  rw [List.length_take] at hcount
  omega

theorem copyLoop_whole (h : Whole x i) :
    copyLoop x (fuel + 1) i (x.position i) s = copyLoop x fuel (i + 1) (x.position (i + 1))
      { store x s (x.received i) with destination := s.destination ++ x.received i } := by
  obtain ⟨room, hwrite, hroom⟩ := h.written
  have hlen : (x.received i).length ≠ 0 := fun hzero => h.received (List.eq_nil_of_length_eq_zero hzero)
  have hall : ¬min room (x.received i).length < (x.received i).length := by omega
  rw [copyLoop, fRead_ok h.read]
  dsimp only
  rw [if_neg hlen, hwrite]
  dsimp only [fWrite]
  rw [if_neg hall, List.take_of_length_le hroom]
  rfl

-- The round that ends the loop: what it returns, and when that is true.
structure Last (x : Input) (i : Nat) (s : State) (fr : FResult) (t : State) : Prop where
  releases : t.releases = s.releases
  stray : t.stray = (s.stray || (!x.allocated && !(x.received i).isEmpty))
  misleading : Misleading x i → fr = .ok ∧ t.destination ≠ x.source
  honest : ¬Misleading x i → fr = .ok → t.destination = x.source
  ok : (x.reads i).isOk = true → (∃ limit, x.writes i = .ok limit) → fr = .ok

theorem copyLoop_error {code : Nat} {copied : List UInt8} (hread : x.reads i = .error code copied) :
    copyLoop x (fuel + 1) i (x.position i) s = some (.error code, store x s (x.received i)) := by
  rw [copyLoop, fRead_error hread]

theorem copyLoop_nothing (hok : (x.reads i).isOk = true) (hnone : x.received i = []) :
    copyLoop x (fuel + 1) i (x.position i) s = some (.ok, store x s (x.received i)) := by
  rw [copyLoop, fRead_ok hok]
  dsimp only
  rw [if_pos (List.length_eq_zero_iff.mpr hnone)]

theorem copyLoop_write_error {code limit : Nat} (hok : (x.reads i).isOk = true) (hsome : x.received i ≠ [])
    (hwrite : x.writes i = .error code limit) :
    copyLoop x (fuel + 1) i (x.position i) s = some (.error code,
      { store x s (x.received i) with destination := s.destination ++ (x.received i).take limit }) := by
  rw [copyLoop, fRead_ok hok]
  dsimp only
  rw [if_neg (fun hzero => hsome (List.eq_nil_of_length_eq_zero hzero)), hwrite]
  rfl

theorem copyLoop_short {limit : Nat} (hok : (x.reads i).isOk = true) (hwrite : x.writes i = .ok limit)
    (hshort : limit < (x.received i).length) :
    copyLoop x (fuel + 1) i (x.position i) s = some (.ok,
      { store x s (x.received i) with destination := s.destination ++ (x.received i).take limit }) := by
  have hless : min limit (x.received i).length < (x.received i).length := by omega
  rw [copyLoop, fRead_ok hok]
  dsimp only
  rw [if_neg (Nat.ne_of_gt (Nat.zero_lt_of_lt hshort)), hwrite]
  dsimp only [fWrite]
  rw [if_pos hless]

-- The prefix that is copied when a round ends without an error.
theorem take_ne_source {count : Nat} (hless : count < x.source.length) : x.source.take count ≠ x.source := by
  intro heq
  have hlen := congrArg List.length heq
  rw [List.length_take] at hlen
  omega

theorem copyLoop_last (hstop : ¬Whole x i) (hplace : x.position i ≤ x.source.length)
    (hdest : s.destination = x.source.take (x.position i)) :
    ∃ fr t, (∀ fuel, copyLoop x (fuel + 1) i (x.position i) s = some (fr, t)) ∧ Last x i s fr t := by
  cases hread : x.reads i with
  | error code copied =>
      have hnot : (x.reads i).isOk ≠ true := by rw [hread]; exact Bool.false_ne_true
      refine ⟨_, _, fun fuel => copyLoop_error hread, rfl, rfl, ?_, nofun, fun hok => absurd hok hnot⟩
      rintro (⟨hok, _, _⟩ | ⟨_, hok, _, _⟩) <;> exact absurd hok hnot
  | ok limit =>
      have hok : (x.reads i).isOk = true := by rw [hread]; rfl
      by_cases hnone : x.received i = []
      · refine ⟨_, _, fun fuel => copyLoop_nothing hok hnone, rfl, rfl, ?_, ?_, fun _ _ => rfl⟩
        · rintro (⟨_, _, hmore⟩ | ⟨limit, _, _, hshort⟩)
          · exact ⟨rfl, fun hsame => take_ne_source (by omega) (hdest.symm.trans hsame)⟩
          · rw [hnone] at hshort
            exact absurd hshort (Nat.not_lt_zero _)
        · intro hhonest _
          have hall : x.position i = x.source.length := by
            by_contra hmore
            exact hhonest (.read hok hnone hmore)
          show s.destination = x.source
          rw [hdest, hall, List.take_length]
      · cases hwrite : x.writes i with
        | error code limit =>
            refine ⟨_, _, fun fuel => copyLoop_write_error hok hnone hwrite, rfl, rfl, ?_, nofun, ?_⟩
            · rintro (⟨_, hempty, _⟩ | ⟨_, _, hother, _⟩)
              · exact absurd hempty hnone
              · rw [hwrite] at hother
                cases hother
            · rintro _ ⟨_, hother⟩
              rw [hwrite] at hother
              cases hother
        | ok room =>
            have hshort : room < (x.received i).length := by
              by_contra hfits
              exact hstop ⟨hok, hnone, room, hwrite, Nat.le_of_not_lt hfits⟩
            refine ⟨_, _, fun fuel => copyLoop_short hok hwrite hshort, rfl, rfl, ?_, ?_, fun _ _ => rfl⟩
            · intro _
              have hle := (length_received_le hok).1
              refine ⟨rfl, ?_⟩
              show s.destination ++ (x.received i).take room ≠ x.source
              rw [hdest, take_received hok (Nat.le_of_lt hshort)]
              exact take_ne_source (by omega)
            · intro hhonest
              exact absurd (.write room hok hwrite hshort) hhonest

-- The state before round i, if there is one.
structure Reached (x : Input) (i : Nat) (s : State) : Prop where
  whole : ∀ j < i, Whole x j
  place : x.position i ≤ x.source.length
  destination : s.destination = x.source.take (x.position i)
  releases : s.releases = []
  stray : s.stray = (!x.allocated && decide (0 < i))

theorem Reached.next (h : Reached x i s) (hwhole : Whole x i) : Reached x (i + 1)
    { store x s (x.received i) with destination := s.destination ++ x.received i } := by
  have hlen := (length_received_le hwhole.read).1
  have hplace := h.place
  refine ⟨?_, ?_, ?_, h.releases, ?_⟩
  · intro j hj
    rcases Nat.lt_succ_iff_lt_or_eq.mp hj with hlt | rfl
    · exact h.whole j hlt
    · exact hwhole
  · show x.position i + (x.received i).length ≤ x.source.length
    omega
  · show s.destination ++ x.received i = x.source.take (x.position i + (x.received i).length)
    rw [h.destination, ← take_received hwhole.read (Nat.le_refl _), List.take_length]
  · show (s.stray || (!x.allocated && !(x.received i).isEmpty)) = _
    have hsome : (x.received i).isEmpty = false := by simpa using hwhole.received
    rw [h.stray, hsome, decide_eq_true (Nat.succ_pos i)]
    cases x.allocated <;> simp

theorem received_pos (h : Whole x i) : 0 < (x.received i).length := List.length_pos_iff.mpr h.received

-- Every whole round takes the loop on in the source, so that it ends.
theorem copyLoop_run (h : Reached x i s) : ∃ n fr t u,
    (∀ fuel, copyLoop x fuel i (x.position i) s = if fuel ≤ n then none else some (fr, t)) ∧
      Reached x (i + n) u ∧ ¬Whole x (i + n) ∧ Last x (i + n) u fr t := by
  obtain ⟨left, hleft⟩ : ∃ left, left = x.source.length - x.position i := ⟨_, rfl⟩
  induction left using Nat.strongRecOn generalizing i s with
  | ind left ih =>
      by_cases hwhole : Whole x i
      · have hnext := h.next hwhole
        have hpos := received_pos hwhole
        have hlen := (length_received_le hwhole.read).1
        have hless : x.source.length - x.position (i + 1) < left := by
          show x.source.length - (x.position i + (x.received i).length) < left
          omega
        obtain ⟨n, fr, t, u, hrun, hreached, hstop, hlast⟩ := ih _ hless hnext rfl
        refine ⟨n + 1, fr, t, u, ?_, ?_, ?_, ?_⟩
        · intro fuel
          cases fuel with
          | zero => rfl
          | succ fuel =>
              rw [copyLoop_whole hwhole, hrun]
              simp only [Nat.add_le_add_iff_right]
        all_goals rw [← Nat.add_assoc, Nat.add_right_comm]; assumption
      · obtain ⟨fr, t, hrun, hlast⟩ := copyLoop_last (s := s) hwhole h.place h.destination
        refine ⟨0, fr, t, s, ?_, h, hwhole, hlast⟩
        intro fuel
        cases fuel with
        | zero => rfl
        | succ fuel =>
            rw [hrun, if_neg (Nat.not_succ_le_zero fuel)]

theorem reached_start (x : Input) : Reached x 0 ⟨[], [], false⟩ :=
  ⟨nofun, Nat.zero_le _, by simp [Input.position], rfl, by simp⟩

-- Without a buffer the first f_read already stores through NULL.
theorem Reached.stray_eq {u : State} {fr : FResult} (h : Reached x k u) (hlast : Last x k u fr t) :
    t.stray = (!x.allocated && !(x.received 0).isEmpty) := by
  rw [hlast.stray, h.stray]
  cases k with
  | zero => simp
  | succ k =>
      have hsome : (x.received 0).isEmpty = false := by simpa using (h.whole 0 (Nat.succ_pos k)).received
      rw [hsome, decide_eq_true (Nat.succ_pos k)]
      cases x.allocated <;> simp

theorem Misleading.not_whole (h : Misleading x i) : ¬Whole x i := by
  intro hwhole
  cases h with
  | read _ hempty _ => exact hwhole.received hempty
  | write limit _ hwrite hshort =>
      obtain ⟨room, hroom, hfits⟩ := hwhole.written
      cases hwrite.symm.trans hroom
      omega

-- The round that ends the loop is the only one that can be misleading.
theorem misleading_iff (hwhole : ∀ j < k, Whole x j) (hstop : ¬Whole x k) :
    (∀ i, (∀ j < i, Whole x j) → ¬Misleading x i) ↔ ¬Misleading x k := by
  constructor
  · intro h
    exact h k hwhole
  · intro h i hbefore hmisleading
    rcases Nat.lt_trichotomy i k with hlt | rfl | hgt
    · exact hmisleading.not_whole (hwhole i hlt)
    · exact h hmisleading
    · exact hstop (hbefore k hgt)

theorem copyFile_open {code : Nat} (hopen : x.openSource = .error code) (fuel : Nat) :
    copyFile x fuel = some (.error code, ⟨x.destination, [.freeBuffer], false⟩) := by
  unfold copyFile
  rw [hopen]
  rfl

theorem copyFile_create {code : Nat} (hopen : x.openSource = .ok) (hcreate : x.openDestination = .error code)
    (fuel : Nat) : copyFile x fuel = some (.error code, ⟨x.destination, [.freeBuffer], false⟩) := by
  unfold copyFile
  rw [hopen, hcreate]
  rfl

theorem copyFile_loop (hopen : x.openSource = .ok) (hcreate : x.openDestination = .ok) (fuel : Nat) :
    copyFile x fuel = (copyLoop x fuel 0 0 ⟨[], [], false⟩).map fun (fr, s) =>
      (fr, { s with releases := s.releases ++ [.closeSource] ++ [.closeDestination] ++ [.freeBuffer] }) := by
  unfold copyFile
  rw [hopen, hcreate]
  rfl

-- copy_file always returns.
theorem copyFile_terminates (x : Input) : ∃ fuel fr s, copyFile x fuel = some (fr, s) := by
  cases hopen : x.openSource with
  | error code => exact ⟨0, _, _, copyFile_open hopen 0⟩
  | ok =>
      cases hcreate : x.openDestination with
      | error code => exact ⟨0, _, _, copyFile_create hopen hcreate 0⟩
      | ok =>
          obtain ⟨n, fr, t, _, hrun, _⟩ := copyLoop_run (reached_start x)
          have hloop : copyLoop x (n + 1) 0 0 ⟨[], [], false⟩ = some (fr, t) :=
            (hrun (n + 1)).trans (if_neg (Nat.not_succ_le_self n))
          exact ⟨n + 1, _, _, (copyFile_loop hopen hcreate (n + 1)).trans (congrArg (Option.map _) hloop)⟩

theorem truthful_open {code : Nat} (hopen : x.openSource = .error code) :
    Truthful x (.error code) ⟨x.destination, [.freeBuffer], false⟩ := by
  have hne : x.openSource ≠ .ok := by rw [hopen]; exact nofun
  refine ⟨rfl, nofun, fun hfull => absurd hfull.openSource hne, ?_, ?_, rfl⟩
  · rw [if_neg hne]
    rfl
  · rw [if_neg fun hboth => hne hboth.1]
    rfl

-- With the destination not opened the source stays open.
theorem not_truthful_create {code : Nat} (hopen : x.openSource = .ok) :
    ¬Truthful x (.error code) ⟨x.destination, [.freeBuffer], false⟩ := by
  intro h
  have hclosed := h.sourceClosed
  rw [if_pos hopen] at hclosed
  cases hclosed

-- Both files open: the round that ends the loop decides.
theorem truthful_loop_iff (hopen : x.openSource = .ok) (hcreate : x.openDestination = .ok) {u : State}
    {fr : FResult} (h : Reached x k u) (hlast : Last x k u fr t) :
    Truthful x fr { t with releases := t.releases ++ [.closeSource] ++ [.closeDestination] ++ [.freeBuffer] } ↔
      (x.allocated = true ∨ x.received 0 = []) ∧ ¬Misleading x k := by
  have hnone : t.releases = [] := hlast.releases.trans h.releases
  have hstray : t.stray = false ↔ x.allocated = true ∨ x.received 0 = [] := by
    rw [h.stray_eq hlast]
    cases x.allocated <;> simp
  constructor
  · intro htrue
    refine ⟨hstray.mp htrue.inside, fun hmisleading => ?_⟩
    obtain ⟨hok, hne⟩ := hlast.misleading hmisleading
    exact hne (htrue.complete hok)
  · rintro ⟨hinside, hhonest⟩
    refine ⟨hstray.mpr hinside, hlast.honest hhonest, ?_, ?_, ?_, ?_⟩
    · intro hfull
      obtain ⟨limit, _, hread⟩ := hfull.reads k
      obtain ⟨room, _, hwrite⟩ := hfull.writes k
      exact hlast.ok (by rw [hread]; rfl) ⟨room, hwrite⟩
    · rw [hnone, if_pos hopen]
      rfl
    · rw [hnone, if_pos ⟨hopen, hcreate⟩]
      rfl
    · rw [hnone]
      rfl

-- copy_file does what it promises exactly on these inputs.
theorem copied_iff (x : Input) : Copied x ↔ Undisturbed x := by
  cases hopen : x.openSource with
  | error code =>
      have hne : x.openSource ≠ .ok := by rw [hopen]; exact nofun
      exact ⟨fun _ => .inl hne, fun _ => ⟨0, _, _, copyFile_open hopen 0, truthful_open hopen⟩⟩
  | ok =>
      have hnot : ¬x.openSource ≠ .ok := fun hne => hne hopen
      cases hcreate : x.openDestination with
      | error code =>
          constructor
          · rintro ⟨fuel, fr, s, hrun, htrue⟩
            cases (copyFile_create hopen hcreate fuel).symm.trans hrun
            exact absurd htrue (not_truthful_create hopen)
          · rintro (hne | ⟨hok, _⟩)
            · exact absurd hne hnot
            · cases hcreate.symm.trans hok
      | ok =>
          obtain ⟨n, fr, t, u, hrun, hreached, hstop, hlast⟩ := copyLoop_run (reached_start x)
          have htruthful := truthful_loop_iff hopen hcreate hreached hlast
          have hmisleading := misleading_iff hreached.whole hstop
          constructor
          · rintro ⟨fuel, fr', s, hsome, htrue⟩
            rw [copyFile_loop hopen hcreate] at hsome
            obtain ⟨⟨fr'', t'⟩, hloop, hmap⟩ := Option.map_eq_some_iff.mp hsome
            obtain ⟨_, hend⟩ := Option.ite_none_left_eq_some.mp ((hrun fuel).symm.trans hloop)
            cases hend
            cases hmap
            obtain ⟨hbuffer, hhonest⟩ := htruthful.mp htrue
            exact .inr ⟨hcreate, hbuffer, hmisleading.mpr hhonest⟩
          · rintro (hne | ⟨_, hbuffer, hhonest⟩)
            · exact absurd hne hnot
            · have hloop : copyLoop x (n + 1) 0 0 ⟨[], [], false⟩ = some (fr, t) :=
                (hrun (n + 1)).trans (if_neg (Nat.not_succ_le_self n))
              refine ⟨n + 1, fr, _, ?_, htruthful.mpr ⟨hbuffer, hmisleading.mp hhonest⟩⟩
              rw [copyFile_loop hopen hcreate, hloop]
              rfl

-- The disk is full before the first of two bytes.
theorem full_disk_copies_short : ¬∀ x, Copied x := by
  intro h
  obtain ⟨fuel, fr, s, hrun, htrue⟩ := h ⟨[1, 2], [], true, .ok, .ok, fun _ => .ok 2048, fun _ => .ok 0⟩
  cases fuel with
  | zero => cases hrun
  | succ fuel =>
      cases hrun
      exact absurd (htrue.complete rfl) (by decide)

end CopyFile

end Carbon
