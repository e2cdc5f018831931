import Carbon.Ftp.Login

namespace Carbon

namespace Ftp

open CString (ascii text)
open SegmentPath

-- What a command does to the working directory of somebody who is logged in.
inductive Effect
  | stays
  -- to the root
  | root
  -- to its parameter
  | enters
  -- to what it makes, if it can
  | makes
  -- to the directory of its parameter
  | visits
  -- likewise, behind RNFR
  | renames
  -- likewise, with or without a date in front
  | dates
  deriving DecidableEq

def effect (command : List UInt8) : Effect :=
  if command = text "CDUP" then .root
  else if command = text "CWD" then .enters
  else if command = text "MKD" then .makes
  else if command ∈ [text "DELE", text "RETR", text "STOR", text "RMD", text "SIZE"] then .visits
  else if command = text "RNTO" then .renames
  else if command = text "MDTM" then .dates
  else .stays

def Effect.dir (env : Env) (pending : Bool) (parameters : List UInt8) (dir : List (List UInt8)) :
    Effect → List (List UInt8)
  | stays => dir
  | root => []
  | enters => if parameters = [] then dir else cd dir parameters
  | makes =>
      if parameters = [] then dir
      else if env.stat.isNone ∧ env.mkdir then cd dir parameters
      else (cd dir parameters).dropLast
  | visits => if parameters = [] then dir else (cd dir parameters).dropLast
  | renames => if parameters = [] ∨ !pending then dir else (cd dir parameters).dropLast
  | dates => (cd dir (dated parameters)).dropLast

-- What a client knows of its session.
structure Client where
  user : User
  dir : List (List UInt8)
  pending : Bool

def Client.command (c : Client) (env : Env) (command parameters : List UInt8) : Client where
  user := nextUser command parameters c.user
  dir := if c.user = .userLoggedIn then (effect command).dir env c.pending parameters c.dir else c.dir
  pending := c.pending || (c.user = .userLoggedIn && command = text "RNFR" && parameters ≠ [])

def Client.next (c : Client) : Input → Client
  | .error => c
  | .netbuf pbuf buflen env =>
      match ftpParseCommand pbuf buflen with
      | none => c
      | some parsed =>
          if parsed.ret < 0 ∨ parsed.command = text "QUIT" then c
          else c.command env parsed.command parsed.parameters

-- The session stands where the client thinks.
structure Located (s : Session) (dir : List (List UInt8)) : Prop where
  names : Names (ascii '/') dir
  path : s.path = path dir
  fits : (Ftp.path dir).length < ftpCwdSize

variable {s t u : Session} {env : Env} {dir : List (List UInt8)}

theorem Located.of_path (h : Located s dir) (hpath : t.path = s.path) : Located t dir :=
  ⟨h.names, hpath.trans h.path, h.fits⟩

theorem Located.up (h : Located s dir) : Located s.up dir.dropLast := by
  refine ⟨h.names.dropLast, ?_, Nat.lt_of_le_of_lt (path_dropLast_length dir) h.fits⟩
  rw [Session.up, h.path, pathUpALevel_path h.names]

theorem Located.build {ftpParam path : List UInt8} {ok : Bool} (h : Located s dir)
    (hproper : Proper (ascii '/') ftpParam) (hparam : ftpParam.length < ftpParamSize)
    (hbuild : pathBuild s.path ftpParam = some (path, ok)) :
    ok = true ∧ Located { s with path } (cd dir ftpParam) := by
  have hbuilt := pathBuild_path h.names hproper hparam h.fits
  rw [← h.path, hbuild] at hbuilt
  split at hbuilt
  · cases hbuilt
    refine ⟨rfl, cd_names h.names ftpParam, rfl, ?_⟩
    obtain ⟨trimmed, _, heq⟩ := Option.map_eq_some_iff.mp hbuild
    injection heq with hpath hfits
    rw [← hpath]
    exact of_decide_eq_true hfits
  · cases hbuilt

-- What every command does to the paths of somebody who is logged in.
structure Moves (env : Env) (command : List UInt8) (dir : List (List UInt8)) (s t : Session) : Prop where
  located : Located t ((effect command).dir env (s.pathRename ≠ []) s.parameters dir)
  pathRename : t.pathRename ≠ [] ↔ s.pathRename ≠ [] ∨ command = text "RNFR" ∧ s.parameters ≠ []

theorem Keeps.moves {command : List UInt8} (h : Keeps s t) (hs : Located s dir)
    (heffect : (effect command).dir env (s.pathRename ≠ []) s.parameters dir = dir)
    (hcommand : command = text "RNFR" → s.parameters = []) : Moves env command dir s t := by
  refine ⟨heffect.symm ▸ hs.of_path h.path, ?_⟩
  rw [h.pathRename]
  exact ⟨.inl, fun hor => hor.elim id fun hrnfr => absurd (hcommand hrnfr.1) hrnfr.2⟩

theorem loggedIn_keeps {body : Session → Option Session} (hbody : ∀ t, body s = some t → Keeps s t)
    (h : loggedIn s body = some t) : Keeps s t := by
  rcases loggedIn_cases h with ⟨_, rfl⟩ | ⟨_, h⟩
  · exact .refl _
  · exact hbody t h

theorem keeps_reply {fmt : Session → String} {args : Session → List Printf.Arg}
    (h : loggedIn s (fun s => some (ftpSend s (fmt s) (args s))) = some t) : Keeps s t := by
  refine loggedIn_keeps (fun t h => ?_) h
  cases h
  exact ⟨rfl, rfl⟩

theorem keeps_mode (h : ftpCmdMode env s = some t) : Keeps s t := by
  refine loggedIn_keeps (fun t h => ?_) h
  cases h
  split <;> exact ⟨rfl, rfl⟩

theorem keeps_stru (h : ftpCmdStru env s = some t) : Keeps s t := by
  refine loggedIn_keeps (fun t h => ?_) h
  cases h
  split <;> exact ⟨rfl, rfl⟩

theorem keeps_type (h : ftpCmdType env s = some t) : Keeps s t := by
  refine loggedIn_keeps (fun t h => ?_) h
  cases h
  split
  · exact ⟨rfl, rfl⟩
  · split <;> exact ⟨rfl, rfl⟩

theorem keeps_pasv (h : ftpCmdPasv env s = some t) : Keeps s t := by
  refine loggedIn_keeps (fun t h => ?_) h
  dsimp only at h
  generalize (ftpDataPort + _ + _) % _ = port at h
  have hopen : Keeps s (pasvConOpen env { s with dataPort := port }).1 :=
    .trans (t := { s with dataPort := port }) ⟨rfl, rfl⟩ (pasvConOpen_keeps ..)
  split at h <;> cases h
  · exact hopen.trans ((dataConClose_keeps _).trans ⟨rfl, rfl⟩)
  · exact hopen.trans ⟨rfl, rfl⟩

theorem keeps_port (h : ftpCmdPort env s = some t) : Keeps s t := by
  refine loggedIn_keeps (fun t h => (dataConClose_keeps s).trans ?_) h
  dsimp only at h
  split at h
  · cases h
    exact ⟨rfl, rfl⟩
  split at h
  · split at h <;> cases h <;> exact ⟨rfl, rfl⟩
  · cases h
    exact ⟨rfl, rfl⟩

theorem keeps_directory {line : Session → FileInfo → List UInt8} {done : Session → Nat → Session}
    (hdone : ∀ s nm, Keeps s (done s nm)) (h : directory env s line done = some t) : Keeps s t := by
  refine loggedIn_keeps (fun t h => ?_) h
  have hopen := dataConOpen_keeps env (s.act (.opendir s.path))
  dsimp only at h
  split at h
  · cases h
    exact ⟨rfl, rfl⟩
  refine .trans (t := s.act (.opendir s.path)) ⟨rfl, rfl⟩ (hopen.trans ?_)
  split at h <;> cases h
  · exact ⟨rfl, rfl⟩
  · exact (listEntries_steady ((Steady.refl _).ftpSend _ _)).keeps.trans
      ((dataConClose_keeps _).trans (hdone _ _))

theorem keeps_site (h : ftpCmdSite env s = some t) : Keeps s t := by
  refine loggedIn_keeps (fun t h => ?_) h
  split at h
  · obtain ⟨_, _, rfl⟩ := Option.map_eq_some_iff.mp h
    exact ⟨rfl, rfl⟩
  · cases h
    exact ⟨rfl, rfl⟩

theorem keeps_auth (h : ftpCmdAuth env s = some t) : Keeps s t := by
  cases h
  exact ⟨rfl, rfl⟩

theorem keeps_user (h : ftpCmdUser env s = some t) : Keeps s t := by
  unfold ftpCmdUser at h
  split at h <;> cases h <;> exact ⟨rfl, rfl⟩

theorem keeps_pass (h : ftpCmdPass env s = some t) : Keeps s t := by
  unfold ftpCmdPass at h
  split at h
  · cases h
    exact ⟨rfl, rfl⟩
  · split at h <;> cases h <;> exact ⟨rfl, rfl⟩

-- Back to the directory of what the path named.
structure Leaves (s t : Session) : Prop where
  path : t.path = pathUpALevel s.path
  pathRename : t.pathRename = s.pathRename

theorem Leaves.located (h : Leaves s t) (hs : Located s dir) : Located t dir.dropLast := hs.up.of_path h.path

theorem Keeps.leaves (h : Keeps s t) : Leaves s t.up := ⟨by rw [Session.up, h.path], h.pathRename⟩

theorem Leaves.trans (h : Leaves s t) (h' : Keeps t u) : Leaves s u :=
  ⟨h'.path.trans h.path, h'.pathRename.trans h.pathRename⟩

-- The end of a transfer.
theorem Keeps.finish (h : Keeps s u) (fmt : String) (args : List Printf.Arg) :
    Leaves s (ftpSend (dataConClose (u.act .closeFile).up) fmt args) := by
  have hclosed : Keeps s (u.act .closeFile) := h.trans ⟨rfl, rfl⟩
  exact hclosed.leaves.trans ((dataConClose_keeps _).trans ⟨rfl, rfl⟩)

-- A command of somebody who is logged in, with a proper parameter.
structure Ready (s : Session) (dir : List (List UInt8)) : Prop extends Located s dir where
  user : s.user = .userLoggedIn
  proper : Proper (ascii '/') s.parameters
  short : s.parameters.length < ftpParamSize

theorem Ready.loggedIn {body : Session → Option Session} (hs : Ready s dir) (h : loggedIn s body = some t) :
    body s = some t :=
  (loggedIn_cases h).elim (fun hout => absurd hs.user hout.1) fun hin => hin.2

theorem Located.build_body {ftpParam : List UInt8} {body : Session → Option Session} (hs : Located s dir)
    (hproper : Proper (ascii '/') ftpParam) (hparam : ftpParam.length < ftpParamSize)
    (h : Ftp.build s ftpParam body = some t) :
    ∃ path, Located { s with path } (cd dir ftpParam) ∧ body { s with path } = some t := by
  obtain ⟨path, ok, hbuild, hbody⟩ := build_cases h
  obtain ⟨rfl, hlocated⟩ := hs.build hproper hparam hbuild
  rcases hbody with ⟨hfalse, _⟩ | ⟨_, hbody⟩
  · cases hfalse
  · exact ⟨path, hlocated, hbody⟩

theorem Ready.named {missing : String} {body : Session → Option Session} (hs : Ready s dir)
    (h : named s missing body = some t) :
    s.parameters = [] ∧ Keeps s t ∨
      s.parameters ≠ [] ∧ ∃ path, Located { s with path } (cd dir s.parameters) ∧ body { s with path } = some t := by
  have hbody := hs.loggedIn h
  split at hbody
  · cases hbody
    exact .inl ⟨List.length_eq_zero_iff.mp ‹_›, rfl, rfl⟩
  · exact .inr ⟨fun hnil => ‹¬_› (by rw [hnil]; rfl), hs.build_body hs.proper hs.short hbody⟩

-- The commands on what their parameter names.
theorem Ready.visits {command : List UInt8} {missing : String} {body : Session → Option Session} (hs : Ready s dir)
    (heffect : effect command = .visits) (hbody : ∀ s t, body s = some t → Leaves s t)
    (h : Ftp.named s missing body = some t) : Moves env command dir s t := by
  have hcommand : command ≠ text "RNFR" := by
    rintro rfl
    exact absurd heffect (by decide)
  rcases hs.named h with ⟨hnil, hkeeps⟩ | ⟨hne, path, hlocated, h⟩
  · exact hkeeps.moves hs.toLocated (by rw [heffect, Effect.dir, if_pos hnil]) fun heq => absurd heq hcommand
  · have hleaves := hbody _ _ h
    refine ⟨?_, ?_⟩
    · rw [heffect, Effect.dir, if_neg hne]
      exact hleaves.located hlocated
    · rw [hleaves.pathRename]
      exact ⟨.inl, fun hor => hor.elim id fun hrnfr => absurd hrnfr.1 hcommand⟩

theorem moves_dele (hs : Ready s dir) (h : ftpCmdDele env s = some t) : Moves env (text "DELE") dir s t := by
  refine hs.visits (by decide) (fun s t h => ?_) h
  dsimp only at h
  split at h
  · cases h
    exact ⟨rfl, rfl⟩
  · split at h <;> cases h <;> exact ⟨rfl, rfl⟩

theorem moves_rmd (hs : Ready s dir) (h : ftpCmdRmd env s = some t) : Moves env (text "RMD") dir s t := by
  refine hs.visits (by decide) (fun s t h => ?_) h
  dsimp only at h
  split at h
  · cases h
    exact ⟨rfl, rfl⟩
  · split at h <;> cases h <;> exact ⟨rfl, rfl⟩

theorem moves_size (hs : Ready s dir) (h : ftpCmdSize env s = some t) : Moves env (text "SIZE") dir s t := by
  refine hs.visits (by decide) (fun s t h => ?_) h
  dsimp only at h
  split at h
  · cases h
    exact ⟨rfl, rfl⟩
  · split at h <;> cases h <;> exact ⟨rfl, rfl⟩

theorem moves_retr (hs : Ready s dir) (h : ftpCmdRetr env s = some t) : Moves env (text "RETR") dir s t := by
  refine hs.visits (by decide) (fun s t h => ?_) h
  have hopened : Keeps s (dataConOpen env ((s.act (.stat s.path)).act (.openFile s.path false))).1 :=
    .trans (t := (s.act (.stat s.path)).act (.openFile s.path false)) ⟨rfl, rfl⟩ (dataConOpen_keeps ..)
  dsimp only at h
  split at h
  · cases h
    exact ⟨rfl, rfl⟩
  split at h
  · cases h
    exact ⟨rfl, rfl⟩
  split at h <;> cases h
  · exact hopened.leaves.trans ⟨rfl, rfl⟩
  · have hloop := fun fmt args => hopened.trans
      (retrLoop_steady env env.blocks 0 ((Steady.refl _).ftpSend fmt args)).keeps
    exact (hloop _ _).finish _ _

theorem moves_stor (hs : Ready s dir) (h : ftpCmdStor env s = some t) : Moves env (text "STOR") dir s t := by
  refine hs.visits (by decide) (fun s t h => ?_) h
  have hopened : Keeps s (dataConOpen env (s.act (.openFile s.path true))).1 :=
    .trans (t := s.act (.openFile s.path true)) ⟨rfl, rfl⟩ (dataConOpen_keeps ..)
  dsimp only at h
  split at h
  · cases h
    exact ⟨rfl, rfl⟩
  split at h
  · cases h
    exact hopened.leaves.trans ⟨rfl, rfl⟩
  · obtain ⟨⟨b, u, fileErr⟩, hloop, rfl⟩ := Option.map_eq_some_iff.mp h
    have hstored := hopened.trans (storLoop_steady ((Steady.refl _).ftpSend _ _) hloop).keeps
    have hrest : Keeps u (if b.buf.length > 0 ∧ fileErr = 0 then u.act (.writeFile b.buf) else u) := by
      split <;> exact ⟨rfl, rfl⟩
    exact (hstored.trans hrest).finish _ _

theorem Moves.of_named {command : List UInt8} (hcommand : command ≠ text "RNFR")
    (hrename : t.pathRename = s.pathRename)
    (hlocated : Located t ((effect command).dir env (s.pathRename ≠ []) s.parameters dir)) :
    Moves env command dir s t := by
  refine ⟨hlocated, ?_⟩
  rw [hrename]
  exact ⟨.inl, fun hor => hor.elim id fun hrnfr => absurd hrnfr.1 hcommand⟩

theorem moves_cwd (hs : Ready s dir) (h : ftpCmdCwd env s = some t) : Moves env (text "CWD") dir s t := by
  have heffect : effect (text "CWD") = .enters := by decide
  rcases hs.named h with ⟨hnil, hkeeps⟩ | ⟨hne, path, hlocated, h⟩
  · exact hkeeps.moves hs.toLocated (by rw [heffect, Effect.dir, if_pos hnil]) (fun _ => hnil)
  · have hkeeps : Keeps { s with path } t := by
      dsimp only at h
      split at h
      · split at h <;> cases h <;> exact ⟨rfl, rfl⟩
      · cases h
        exact ⟨rfl, rfl⟩
    refine .of_named (by decide) hkeeps.pathRename ?_
    rw [heffect, Effect.dir, if_neg hne]
    exact hlocated.of_path hkeeps.path

theorem moves_cdup (hs : Ready s dir) (h : ftpCmdCdup env s = some t) : Moves env (text "CDUP") dir s t := by
  have hroot := hs.loggedIn h
  cases hroot
  refine .of_named (by decide) rfl ?_
  rw [show effect (text "CDUP") = .root by decide, Effect.dir]
  exact ⟨Names.nil, rfl, by decide⟩

theorem moves_mkd (hs : Ready s dir) (h : ftpCmdMkd env s = some t) : Moves env (text "MKD") dir s t := by
  have heffect : effect (text "MKD") = .makes := by decide
  rcases hs.named h with ⟨hnil, hkeeps⟩ | ⟨hne, path, hlocated, h⟩
  · exact hkeeps.moves hs.toLocated (by rw [heffect, Effect.dir, if_pos hnil]) (fun _ => hnil)
  · dsimp only at h
    split at h
    · rename_i hstat
      cases h
      refine .of_named (by decide) rfl ?_
      rw [heffect, Effect.dir, if_neg hne, if_neg (by simp [hstat])]
      exact hlocated.up.of_path rfl
    · rename_i hstat
      split at h <;> rename_i hmkdir <;> cases h
      · refine .of_named (by decide) rfl ?_
        rw [heffect, Effect.dir, if_neg hne, if_neg (fun hand => by simp [hand.2] at hmkdir)]
        exact hlocated.up.of_path rfl
      · refine .of_named (by decide) rfl ?_
        rw [heffect, Effect.dir, if_neg hne, if_pos ⟨by rw [hstat]; rfl, by simpa using hmkdir⟩]
        exact hlocated.of_path rfl

theorem moves_rnfr (hs : Ready s dir) (h : ftpCmdRnfr env s = some t) : Moves env (text "RNFR") dir s t := by
  have heffect : effect (text "RNFR") = .stays := by decide
  have hbody := hs.loggedIn h
  split at hbody
  · cases hbody
    exact Keeps.moves ⟨rfl, rfl⟩ hs.toLocated (by rw [heffect, Effect.dir])
      fun _ => List.length_eq_zero_iff.mp ‹_›
  · have hne : s.parameters ≠ [] := fun hnil => ‹¬_› (by rw [hnil]; rfl)
    obtain ⟨⟨pathRename, ok⟩, hbuild, rfl⟩ := Option.map_eq_some_iff.mp hbody
    obtain ⟨_, hlocated⟩ := hs.build hs.proper hs.short hbuild
    have hpath : pathRename ≠ [] := by
      have heq : pathRename = path (cd dir s.parameters) := hlocated.path
      rw [heq]
      exact path_ne_nil hlocated.names
    refine ⟨?_, ?_⟩
    · rw [heffect, Effect.dir]
      refine hs.of_path ?_
      dsimp only
      split
      · rfl
      · split <;> rfl
    · refine iff_of_true ?_ (.inr ⟨rfl, hne⟩)
      dsimp only
      split
      · exact hpath
      · split <;> exact hpath

theorem moves_rnto (hs : Ready s dir) (h : ftpCmdRnto env s = some t) : Moves env (text "RNTO") dir s t := by
  have heffect : effect (text "RNTO") = .renames := by decide
  have hbody := hs.loggedIn h
  split at hbody
  · cases hbody
    exact Keeps.moves ⟨rfl, rfl⟩ hs.toLocated
      (by rw [heffect, Effect.dir, if_pos (.inl (List.length_eq_zero_iff.mp ‹_›))])
      (fun heq => absurd heq (by decide))
  split at hbody
  · cases hbody
    have hnil := List.length_eq_zero_iff.mp ‹s.pathRename.length = 0›
    exact Keeps.moves ⟨rfl, rfl⟩ hs.toLocated
      (by rw [heffect, Effect.dir, if_pos (.inr (by simp [hnil]))]) (fun heq => absurd heq (by decide))
  · have hne : s.parameters ≠ [] := fun hnil => ‹¬s.parameters.length = 0› (by rw [hnil]; rfl)
    have hpending : s.pathRename ≠ [] := fun hnil => ‹¬s.pathRename.length = 0› (by rw [hnil]; rfl)
    obtain ⟨path, hlocated, hbody⟩ := hs.build_body hs.proper hs.short hbody
    have hleaves : Leaves { s with path } t := by
      dsimp only at hbody
      split at hbody <;> cases hbody
      · exact ⟨rfl, rfl⟩
      · split <;> exact ⟨rfl, rfl⟩
    refine .of_named (by decide) hleaves.pathRename ?_
    rw [heffect, Effect.dir, if_neg (by simp [hne, hpending])]
    exact hleaves.located hlocated

theorem moves_mdtm (hs : Ready s dir) (h : ftpCmdMdtm env s = some t) : Moves env (text "MDTM") dir s t := by
  have heffect : effect (text "MDTM") = .dates := by decide
  have hbody := hs.loggedIn h
  have hproper : Proper (ascii '/') (dated s.parameters) := by
    unfold dated
    split
    exacts [hs.proper.drop 15, hs.proper]
  have hshort : (dated s.parameters).length < ftpParamSize := by
    have hs := hs.short
    unfold dated
    split
    · rw [List.length_drop]
      omega
    · exact hs
  have hstart : Keeps s (mdtmStart s) := by
    unfold mdtmStart
    split <;> split <;> exact ⟨rfl, rfl⟩
  generalize mdtmStart s = u at hstart hbody
  obtain ⟨path, hlocated, hbody⟩ := (hs.of_path hstart.path).build_body hproper hshort hbody
  have hleaves : Leaves { u with path } t := by
    dsimp only at hbody
    split at hbody
    · cases hbody
      exact ⟨rfl, rfl⟩
    · split at hbody <;> cases hbody <;> exact ⟨rfl, rfl⟩
  refine .of_named (by decide) (hleaves.pathRename.trans hstart.pathRename) ?_
  rw [heffect, Effect.dir]
  exact hleaves.located hlocated

theorem Ready.stays {command : List UInt8} (hs : Ready s dir) (heffect : effect command = .stays)
    (hcommand : command ≠ text "RNFR") (h : Keeps s t) : Moves env command dir s t :=
  h.moves hs.toLocated (by rw [heffect, Effect.dir]) fun heq => absurd heq hcommand

theorem command_moves : ∀ cmd ∈ ftpdCommands, ∀ env s t dir, Ready s dir → cmd.2 env s = some t →
    Moves env cmd.1 dir s t := by
  unfold ftpdCommands
  simp only [List.forall_mem_cons, List.not_mem_nil, false_implies, implies_true, and_true]
  refine ⟨?_, fun _ _ _ _ => moves_cwd, fun _ _ _ _ => moves_cdup, ?_, ?_, ?_, ?_, ?_, ?_, ?_, ?_,
    fun _ _ _ _ => moves_dele, ?_, fun _ _ _ _ => moves_retr, fun _ _ _ _ => moves_stor,
    fun _ _ _ _ => moves_mkd, fun _ _ _ _ => moves_rmd, fun _ _ _ _ => moves_rnfr, fun _ _ _ _ => moves_rnto,
    ?_, fun _ _ _ _ => moves_mdtm, fun _ _ _ _ => moves_size, ?_, ?_, ?_, ?_, ?_, ?_⟩
  all_goals intro env s t dir hs h
  all_goals refine hs.stays (by decide) (by decide) ?_
  exacts [keeps_reply h, keeps_mode h, keeps_stru h, keeps_type h, keeps_pasv h, keeps_port h,
    keeps_directory (fun _ _ => ((Steady.refl _).ftpSend _ _).keeps) h,
    keeps_directory (fun _ _ => ((Steady.refl _).ftpSend _ _).keeps) h,
    keeps_directory (fun _ _ => ((Steady.refl _).ftpSend _ _).keeps) h, keeps_reply h, keeps_reply h, keeps_site h,
    keeps_reply h, keeps_reply h, keeps_auth h, keeps_user h, keeps_pass h]

theorem effect_unknown {command : List UInt8} (h : ∀ cmd ∈ ftpdCommands, cmd.1 ≠ command) :
    effect command = .stays ∧ command ≠ text "RNFR" := by
  have hne : ∀ name ∈ ftpdCommands.map Prod.fst, command ≠ name := by
    intro name hname
    obtain ⟨cmd, hcmd, rfl⟩ := List.mem_map.mp hname
    exact (h cmd hcmd).symm
  refine ⟨?_, hne _ (by decide)⟩
  unfold effect
  rw [if_neg (hne _ (by decide)), if_neg (hne _ (by decide)), if_neg (hne _ (by decide)), if_neg,
    if_neg (hne _ (by decide)), if_neg (hne _ (by decide))]
  intro hmem
  refine hne command ?_ rfl
  exact (show [text "DELE", text "RETR", text "STOR", text "RMD", text "SIZE"] ⊆ ftpdCommands.map Prod.fst by decide)
    hmem

theorem process_moves (hs : Ready s dir) (h : ftpProcessCommand env s = some t) : Moves env s.command dir s t := by
  unfold ftpProcessCommand at h
  split at h
  · rename_i cmd hfind
    have hname : cmd.1 = s.command := by simpa using List.find?_some hfind
    rw [← hname]
    exact command_moves cmd (List.mem_of_find?_eq_some hfind) env s t dir hs h
  · rename_i hnone
    have hnot : ∀ cmd ∈ ftpdCommands, cmd.1 ≠ s.command := by simpa using hnone
    obtain ⟨heffect, hrnfr⟩ := effect_unknown hnot
    cases h
    exact hs.stays heffect hrnfr ⟨rfl, rfl⟩

-- The session is where the client is.
structure Represents (s : Session) (c : Client) : Prop where
  located : Located s c.dir
  user : s.user = c.user
  pending : s.pathRename ≠ [] ↔ c.pending = true

-- The parameters of a client that leaves no name empty.
def Sane : Input → Prop
  | .error => True
  | .netbuf pbuf buflen _ => ∀ parsed ∈ ftpParseCommand pbuf buflen, Proper (ascii '/') parsed.parameters

instance : DecidablePred Sane
  | .error => inferInstanceAs (Decidable True)
  | .netbuf pbuf buflen _ =>
      inferInstanceAs (Decidable (∀ parsed ∈ ftpParseCommand pbuf buflen, Proper (ascii '/') parsed.parameters))

variable {c : Client} {v w : Service} {input : Input}

theorem represents_command {command parameters : List UInt8} (hs : Represents s c)
    (hcommand : s.command = command) (hparameters : s.parameters = parameters)
    (hproper : Proper (ascii '/') s.parameters) (hshort : s.parameters.length < ftpParamSize)
    (h : ftpProcessCommand env s = some t) : Represents t (c.command env command parameters) := by
  subst hcommand hparameters
  have huser := (process_behaves h).user
  rw [hs.user] at huser
  by_cases hlogged : c.user = .userLoggedIn
  · have hmoves := process_moves ⟨hs.located, hs.user.trans hlogged, hproper, hshort⟩ h
    refine ⟨?_, huser, ?_⟩
    · have hpending : decide (s.pathRename ≠ []) = c.pending := by
        rw [Bool.eq_iff_iff, decide_eq_true_iff, hs.pending]
      rw [Client.command]
      dsimp only
      rw [if_pos hlogged, ← hpending]
      exact hmoves.located
    · rw [hmoves.pathRename, hs.pending, Client.command]
      simp [hlogged]
  · have hkeeps := (process_withheld (by rw [hs.user]; exact hlogged) h).keeps
    refine ⟨?_, huser, ?_⟩
    · rw [Client.command]
      dsimp only
      rw [if_neg hlogged]
      exact hs.located.of_path hkeeps.path
    · rw [hkeeps.pathRename, hs.pending, Client.command]
      simp [hlogged]

theorem ends_represents (hs : Represents s c) (hends : Ends s input t) :
    Represents (dataConClose (pasvConClose t)) (c.next input) := by
  have hkeeps : Keeps s t := by
    cases hends <;> exact ⟨rfl, rfl⟩
  have hclosed := hkeeps.trans ((pasvConClose_keeps t).trans (dataConClose_keeps _))
  have huser : (dataConClose (pasvConClose t)).user = s.user :=
    (dataConClose_user _).trans ((pasvConClose_user t).trans hends.quiet.user)
  have hnext : c.next input = c := by
    cases hends with
    | error => rfl
    | tooLong hparse hret => simp only [Client.next, hparse, hret, true_or, if_true]
    | quit hparse hcommand => simp only [Client.next, hparse, hcommand, or_true, if_true]
  rw [hnext]
  exact ⟨hs.located.of_path hclosed.path, huser.trans hs.user, by rw [hclosed.pathRename, hs.pending]⟩

theorem step_represents (hs : Represents v.session c) (hsane : Sane input) (h : system.step v input = some w) :
    Represents w.session (c.next input) := by
  cases v with
  | closed s => cases h
  | serving s =>
      rcases round_cases h with ⟨pbuf, buflen, parsed, env, t, rfl, hparse, hgoes, rfl, hprocess⟩ | ⟨t, rfl, hends⟩
      · have hnext : c.next (.netbuf pbuf buflen env) = c.command env parsed.command parsed.parameters := by
          simp only [Client.next, hparse, hgoes, if_false]
        rw [hnext]
        exact represents_command (s := { s with command := parsed.command, parameters := parsed.parameters })
          ⟨hs.located.of_path rfl, hs.user, hs.pending⟩ rfl rfl (hsane parsed hparse)
          (parse_parameters hparse).2 hprocess
      · exact ends_represents hs hends

def Client.start : Client := ⟨.none, [], false⟩

theorem run_represents {inputs : List Input} (hs : Represents v.session c) (hsane : ∀ input ∈ inputs, Sane input)
    (h : system.run v inputs = some w) : Represents w.session (inputs.foldl Client.next c) := by
  induction inputs generalizing v c with
  | nil =>
      cases h
      exact hs
  | cons input rest ih =>
      obtain ⟨u, hstep, hrest⟩ := Option.bind_eq_some_iff.mp h
      exact ih (step_represents hs (hsane input (List.mem_cons_self ..)) hstep)
        (fun input hmem => hsane input (List.mem_cons_of_mem _ hmem)) hrest

theorem start_represents (old : Session) (ipserver : BitVec 32) :
    Represents (ftpServiceStart old ipserver) .start :=
  ⟨⟨Names.nil, rfl, by decide⟩, rfl, by simp [ftpServiceStart, ftpSend, Client.start]⟩

-- Whatever a client sends and however the file system answers, the session stands
-- where the lines say, and is logged in if they say so.
theorem working_directory {old : Session} {ipserver : BitVec 32} {inputs : List Input}
    (hsane : ∀ input ∈ inputs, Sane input)
    (hrun : system.run (.serving (ftpServiceStart old ipserver)) inputs = some v) :
    v.session.path = path (inputs.foldl Client.next .start).dir ∧
      v.session.user = (inputs.foldl Client.next .start).user := by
  have hrepresents := run_represents (v := .serving (ftpServiceStart old ipserver)) (start_represents old ipserver)
    hsane hrun
  exact ⟨hrepresents.located.path, hrepresents.user⟩

-- DELE in another directory moves there.
def deleting : List Input :=
  [.line "USER user\r\n", .line "PASS user\r\n", .line "CWD a/b\r\n", .line "DELE c/x\r\n"]

theorem working_directory_dele :
    ∃ v, system.run (.serving (ftpServiceStart .fresh 0)) deleting = some v ∧
      v.session.path = text "/a/b/c" ∧ v.session.user = .userLoggedIn := by
  have hruns : (system.run (.serving (ftpServiceStart .fresh 0)) deleting).isSome := by decide +kernel
  obtain ⟨v, hrun⟩ := Option.isSome_iff_exists.mp hruns
  obtain ⟨hpath, huser⟩ := working_directory (by decide +kernel) hrun
  exact ⟨v, hrun, hpath.trans (by decide +kernel), huser.trans (by decide +kernel)⟩

-- A name for what lies in the working directory itself.
def Plain (name : List UInt8) : Prop := Name (ascii '/') name ∧ name ≠ text ".."

theorem cd_plain {name : List UInt8} (h : Plain name) : (cd dir name).dropLast = dir := by
  obtain ⟨hname, hparent⟩ := h
  have hroot : ¬(name = text "/" ∨ name.length = 0) := by
    rintro (rfl | hzero)
    · exact hname.2 (by decide)
    · exact hname.1 (List.length_eq_zero_iff.mp hzero)
  have hrelative : name.head? ≠ some (ascii '/') := fun hhead => hname.2 (List.mem_of_mem_head? hhead)
  rw [cd, if_neg hroot, if_neg hparent, if_pos hrelative, names_name hname, List.dropLast_concat]

theorem plain_stays {command parameters : List UInt8} {pending : Bool}
    (heffect : effect command = .visits ∨ effect command = .renames ∨ effect command = .dates)
    (hplain : Plain (if effect command = .dates then dated parameters else parameters)) :
    (effect command).dir env pending parameters dir = dir := by
  rcases heffect with h | h | h <;> rw [h] at hplain ⊢
  · rw [Effect.dir]
    split
    exacts [rfl, cd_plain hplain]
  · rw [Effect.dir]
    split
    exacts [rfl, cd_plain hplain]
  · rw [Effect.dir]
    exact cd_plain hplain

-- The commands on a file leave the working directory alone when they are given a plain
-- name, whether they succeed or not.
theorem file_command_stays {old : Session} {ipserver : BitVec 32} {inputs : List Input} {pbuf : Payload}
    {buflen : Nat} {parsed : Parsed} (hsane : ∀ input ∈ inputs, Sane input)
    (hrun : system.run (.serving (ftpServiceStart old ipserver)) inputs = some v)
    (hparse : ftpParseCommand pbuf buflen = some parsed)
    (heffect : effect parsed.command = .visits ∨ effect parsed.command = .renames ∨ effect parsed.command = .dates)
    (hplain : Plain (if effect parsed.command = .dates then dated parsed.parameters else parsed.parameters))
    (hproper : Proper (ascii '/') parsed.parameters)
    (hstep : system.step v (.netbuf pbuf buflen env) = some w) : w.session.path = v.session.path := by
  have hrepresents := run_represents (v := .serving (ftpServiceStart old ipserver)) (start_represents old ipserver)
    hsane hrun
  have hline : Sane (.netbuf pbuf buflen env) :=
    fun other hother => Option.some.inj (hparse.symm.trans hother) ▸ hproper
  have hnext := step_represents hrepresents hline hstep
  have hdir : ∀ c : Client, (c.next (.netbuf pbuf buflen env)).dir = c.dir := by
    intro c
    simp only [Client.next, hparse]
    split
    · rfl
    · rw [Client.command]
      dsimp only
      split
      exacts [plain_stays heffect hplain, rfl]
  rw [hnext.located.path, hdir, hrepresents.located.path]

end Ftp

end Carbon
