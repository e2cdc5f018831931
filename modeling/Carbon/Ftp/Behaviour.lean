import Carbon.Ftp.Connections

namespace Carbon

namespace Ftp

open CString (text)
open Handles (lifeAfter)

variable {s t u : Session} {env : Env}

-- The parts the commands share.
theorem loggedIn_cases {body : Session → Option Session} (h : loggedIn s body = some t) :
    s.user ≠ .userLoggedIn ∧ t = s ∨ s.user = .userLoggedIn ∧ body s = some t := by
  unfold loggedIn at h
  split at h
  · exact .inl ⟨‹_›, (Option.some.inj h).symm⟩
  · exact .inr ⟨not_not.mp ‹_›, h⟩

theorem build_cases {ftpParam : List UInt8} {body : Session → Option Session} (h : build s ftpParam body = some t) :
    ∃ path ok, pathBuild s.path ftpParam = some (path, ok) ∧
      (ok = false ∧ t = ftpSend { s with path } "500 Command line too long\r\n" [] ∨
        ok = true ∧ body { s with path } = some t) := by
  obtain ⟨⟨path, ok⟩, hbuild, hrest⟩ := Option.bind_eq_some_iff.mp h
  refine ⟨path, ok, hbuild, ?_⟩
  cases ok with
  | false => exact .inl ⟨rfl, (Option.some.inj hrest).symm⟩
  | true => exact .inr ⟨rfl, hrest⟩

theorem build_serves {ftpParam : List UInt8} {body : Session → Option Session}
    (hbody : ∀ s t, body s = some t → Serves s t) (h : build s ftpParam body = some t) : Serves s t := by
  obtain ⟨path, ok, _, ⟨_, rfl⟩ | ⟨_, h⟩⟩ := build_cases h
  · exact (Quiet.ftpSend ((Quiet.refl s).path path) _ _).serves
  · exact ((Quiet.refl s).path path).serves.trans (hbody _ t h)

theorem loggedIn_serves {body : Session → Option Session} (hbody : ∀ t, body s = some t → Serves s t)
    (h : loggedIn s body = some t) : Serves s t := by
  rcases loggedIn_cases h with ⟨_, rfl⟩ | ⟨_, h⟩
  · exact .refl _
  · exact hbody t h

theorem named_serves {missing : String} {body : Session → Option Session}
    (hbody : ∀ s t, body s = some t → Serves s t) (h : named s missing body = some t) : Serves s t := by
  refine loggedIn_serves (fun t h => ?_) h
  split at h
  · cases h
    exact ((Quiet.refl s).ftpSend _ _).serves
  · exact build_serves hbody h

theorem serves_reply (fmt : String) (args : List Printf.Arg) : Serves s (ftpSend s fmt args) :=
  ((Quiet.refl s).ftpSend fmt args).serves

-- The commands that leave the connections alone. Some do nothing but reply.
theorem loggedIn_reply {fmt : Session → String} {args : Session → List Printf.Arg}
    (h : loggedIn s (fun s => some (ftpSend s (fmt s) (args s))) = some t) : Serves s t := by
  refine loggedIn_serves (fun t h => ?_) h
  cases h
  exact serves_reply ..

theorem serves_cwd (h : ftpCmdCwd env s = some t) : Serves s t := by
  refine named_serves (fun s t h => Quiet.serves ?_) h
  dsimp only at h
  split at h
  · split at h <;> cases h <;> exact ((Quiet.refl s).plain rfl).ftpSend _ _
  · cases h
    exact (Quiet.refl s).ftpSend _ _

theorem serves_cdup (h : ftpCmdCdup env s = some t) : Serves s t := by
  refine loggedIn_serves (fun t h => ?_) h
  cases h
  exact (((Quiet.refl s).path _).ftpSend _ _).serves

theorem serves_mode (h : ftpCmdMode env s = some t) : Serves s t := by
  refine loggedIn_serves (fun t h => ?_) h
  cases h
  split <;> exact serves_reply ..

theorem serves_stru (h : ftpCmdStru env s = some t) : Serves s t := by
  refine loggedIn_serves (fun t h => ?_) h
  cases h
  split <;> exact serves_reply ..

theorem serves_type (h : ftpCmdType env s = some t) : Serves s t := by
  refine loggedIn_serves (fun t h => ?_) h
  cases h
  split
  · exact serves_reply ..
  · split <;> exact serves_reply ..

theorem serves_dele (h : ftpCmdDele env s = some t) : Serves s t := by
  refine named_serves (fun s t h => Quiet.serves ?_) h
  have hstat : Quiet s (s.act (.stat s.path)) := (Quiet.refl s).plain rfl
  dsimp only at h
  split at h
  · cases h
    exact hstat.up.ftpSend _ _
  · have hunlink := hstat.plain (a := .unlink s.path) rfl
    split at h <;> cases h
    · exact hunlink.up.ftpSend _ _
    · exact (hunlink.ftpSend _ _).up

theorem serves_mkd (h : ftpCmdMkd env s = some t) : Serves s t := by
  refine named_serves (fun s t h => Quiet.serves ?_) h
  have hstat : Quiet s (s.act (.stat s.path)) := (Quiet.refl s).plain rfl
  dsimp only at h
  split at h
  · cases h
    exact hstat.up.ftpSend _ _
  · have hmkdir := hstat.plain (a := .mkdir s.path) rfl
    split at h <;> cases h
    · exact hmkdir.up.ftpSend _ _
    · exact hmkdir.ftpSend _ _

theorem serves_rmd (h : ftpCmdRmd env s = some t) : Serves s t := by
  refine named_serves (fun s t h => Quiet.serves ?_) h
  have hstat : Quiet s (s.act (.stat s.path)) := (Quiet.refl s).plain rfl
  dsimp only at h
  split at h
  · cases h
    exact hstat.up.ftpSend _ _
  · have hunlink := hstat.plain (a := .unlink s.path) rfl
    split at h <;> cases h
    · exact hunlink.up.ftpSend _ _
    · exact (hunlink.ftpSend _ _).up

theorem serves_rnfr (h : ftpCmdRnfr env s = some t) : Serves s t := by
  refine loggedIn_serves (fun t h => ?_) h
  split at h
  · cases h
    exact serves_reply ..
  · obtain ⟨⟨pathRename, ok⟩, _, rfl⟩ := Option.map_eq_some_iff.mp h
    have hrename : Quiet s { s with pathRename } := .of_eq rfl rfl rfl rfl rfl
    refine Quiet.serves ?_
    dsimp only
    split
    · exact hrename.ftpSend _ _
    · split <;> exact (hrename.plain rfl).ftpSend _ _

theorem serves_rnto (h : ftpCmdRnto env s = some t) : Serves s t := by
  refine loggedIn_serves (fun t h => ?_) h
  split at h
  · cases h
    exact serves_reply ..
  split at h
  · cases h
    exact serves_reply ..
  · refine build_serves (fun s t h => Quiet.serves ?_) h
    have hstat : Quiet s (s.act (.stat s.path)) := (Quiet.refl s).plain rfl
    dsimp only at h
    split at h <;> cases h
    · exact (hstat.ftpSend _ _).up
    · have hrename := hstat.plain (a := .rename s.pathRename s.path) rfl
      split <;> exact (hrename.ftpSend _ _).up

theorem mdtmStart_quiet (s : Session) : Quiet s (mdtmStart s) := by
  have hcut : Quiet s { s with parameters := s.parameters.take 4 } := .of_eq rfl rfl rfl rfl rfl
  unfold mdtmStart
  split <;> split
  exacts [hcut.ftpSend _ _, hcut, (Quiet.refl s).ftpSend _ _, .refl s]

theorem serves_mdtm (h : ftpCmdMdtm env s = some t) : Serves s t := by
  refine loggedIn_serves (fun t h => (mdtmStart_quiet s).serves.trans ?_) h
  refine build_serves (fun s t h => Quiet.serves ?_) h
  have hstat : Quiet s (s.act (.stat s.path)) := (Quiet.refl s).plain rfl
  dsimp only at h
  split at h
  · cases h
    exact hstat.up.ftpSend _ _
  · split at h <;> cases h
    · exact hstat.up.ftpSend _ _
    · exact (hstat.up.plain rfl).ftpSend _ _

theorem serves_size (h : ftpCmdSize env s = some t) : Serves s t := by
  refine named_serves (fun s t h => Quiet.serves ?_) h
  have hstat : Quiet s (s.act (.stat s.path)) := (Quiet.refl s).plain rfl
  dsimp only at h
  split at h
  · cases h
    exact (hstat.ftpSend _ _).up
  · split at h <;> cases h
    · exact (hstat.ftpSend _ _).up
    · exact ((hstat.ftpSend _ _).plain rfl).up

theorem serves_site (h : ftpCmdSite env s = some t) : Serves s t := by
  refine loggedIn_serves (fun t h => ?_) h
  split at h
  · obtain ⟨_, _, rfl⟩ := Option.map_eq_some_iff.mp h
    exact (((Quiet.refl s).plain rfl).ftpSend _ _).serves
  · cases h
    exact serves_reply ..

theorem serves_auth (h : ftpCmdAuth env s = some t) : Serves s t := by
  cases h
  exact serves_reply ..

-- The commands with a data connection.
theorem serves_pasv (h : ftpCmdPasv env s = some t) : Serves s t := by
  refine loggedIn_serves (fun t h => ?_) h
  dsimp only at h
  generalize (ftpDataPort + _ + _) % _ = port at h
  have hport : Quiet s { s with dataPort := port } := .of_eq rfl rfl rfl rfl rfl
  have hopen := hport.serves.trans (pasvConOpen_serves env { s with dataPort := port })
  split at h <;> cases h
  · exact hopen.trans ((dataConClose_serves _).trans (((Quiet.refl _).ftpSend _ _).mode _).serves)
  · exact hopen.trans (((Quiet.refl _).ftpSend _ _).mode _).serves

theorem serves_port (h : ftpCmdPort env s = some t) : Serves s t := by
  refine loggedIn_serves (fun t h => (dataConClose_serves s).trans (Quiet.serves ?_)) h
  dsimp only at h
  split at h
  · cases h
    exact ((Quiet.refl _).ftpSend _ _).mode _
  split at h
  · split at h <;> cases h
    · exact (((Quiet.refl _).address _ _).ftpSend _ _).mode _
    · exact (((Quiet.refl _).address _ (dataConClose s).ipclient).ftpSend _ _).mode _
  · cases h
    exact ((Quiet.refl _).ftpSend _ _).mode _

theorem Opens.serves (h : Opens s t false) : Serves s t := ⟨h.user, h.acts, h.failed rfl⟩

-- What lies between opening and closing is quiet.
theorem Opens.transfer {opened : Bool} (h : Opens s t opened) (hquiet : Quiet t u) : Serves s (dataConClose u) := by
  obtain ⟨huser, hacts, _⟩ := dataConClose_fields u
  obtain ⟨new, hnew, _⟩ := hquiet.acts
  exact ⟨huser.trans (hquiet.user.trans h.user), h.acts.trans (.trans ⟨new, hnew.symm⟩ hacts),
    fun hs => dataConClose_idle (hquiet.owned (h.owned hs))⟩

theorem serves_directory {line : Session → FileInfo → List UInt8} {done : Session → Nat → Session}
    (hdone : ∀ s nm, Quiet s (done s nm)) (h : directory env s line done = some t) : Serves s t := by
  refine loggedIn_serves (fun t h => ?_) h
  refine .trans ((Quiet.refl s).plain (a := .opendir s.path) rfl).serves ?_
  have hopens := dataConOpen_opens env (s.act (.opendir s.path))
  dsimp only at h
  split at h
  · cases h
    exact serves_reply ..
  cases hopen : dataConOpen env (s.act (.opendir s.path)) with
  | mk s' opened =>
      rw [hopen] at h hopens
      cases opened with
      | false =>
          cases h
          exact hopens.serves.trans (serves_reply ..)
      | true =>
          cases h
          exact (hopens.transfer (listEntries_steady ((Steady.refl _).ftpSend _ _)).quiet).trans (hdone _ _).serves

theorem serves_retr (h : ftpCmdRetr env s = some t) : Serves s t := by
  refine named_serves (fun s t h => ?_) h
  have hstat : Quiet s (s.act (.stat s.path)) := (Quiet.refl s).plain rfl
  dsimp only at h
  split at h
  · cases h
    exact (hstat.up.ftpSend _ _).serves
  have hfile := hstat.plain (a := .openFile s.path false) rfl
  split at h
  · cases h
    exact (hfile.up.ftpSend _ _).serves
  have hopens := dataConOpen_opens env ((s.act (.stat s.path)).act (.openFile s.path false))
  refine hfile.serves.trans ?_
  cases hopen : dataConOpen env ((s.act (.stat s.path)).act (.openFile s.path false)) with
  | mk s' opened =>
      rw [act_path, hopen] at h
      rw [hopen] at hopens
      cases opened with
      | false =>
          cases h
          exact hopens.serves.trans (((Quiet.refl _).up.ftpSend _ _).plain rfl).serves
      | true =>
          cases h
          have hsent := fun fmt args =>
            (retrLoop_steady env env.blocks 0 ((Steady.refl s').ftpSend fmt args)).quiet
          exact (hopens.transfer ((hsent _ _).plain rfl).up).trans (serves_reply ..)

theorem serves_stor (h : ftpCmdStor env s = some t) : Serves s t := by
  refine named_serves (fun s t h => ?_) h
  have hfile : Quiet s (s.act (.openFile s.path true)) := (Quiet.refl s).plain rfl
  dsimp only at h
  split at h
  · cases h
    exact (hfile.up.ftpSend _ _).serves
  have hopens := dataConOpen_opens env (s.act (.openFile s.path true))
  refine hfile.serves.trans ?_
  cases hopen : dataConOpen env (s.act (.openFile s.path true)) with
  | mk s' opened =>
      rw [hopen] at h hopens
      cases opened with
      | false =>
          cases h
          exact hopens.serves.trans (((Quiet.refl _).up.ftpSend _ _).plain rfl).serves
      | true =>
          obtain ⟨⟨b, s, fileErr⟩, hloop, rfl⟩ := Option.map_eq_some_iff.mp h
          have hstored := (storLoop_steady ((Steady.refl s').ftpSend _ _) hloop).quiet
          have hrest : Quiet s' (if b.buf.length > 0 ∧ fileErr = 0 then s.act (.writeFile b.buf) else s) := by
            split
            · exact hstored.plain rfl
            · exact hstored
          exact (hopens.transfer (hrest.plain rfl).up).trans (serves_reply ..)

-- Who is logged in after a command.
def nextUser (command parameters : List UInt8) (user : User) : User :=
  if command = text "USER" then (if parameters = ftpUserName then .userNoPass else user)
  else if command = text "PASS" then
    (if user ≠ .none ∧ parameters = ftpUserPass then .userLoggedIn else user)
  else user

-- What every command does.
structure Behaves (command : List UInt8) (s t : Session) : Prop where
  serves : Serves s { t with user := s.user }
  user : t.user = nextUser command s.parameters s.user

theorem Serves.behaves {command : List UInt8} (h : Serves s t) (huser : command ≠ text "USER")
    (hpass : command ≠ text "PASS") : Behaves command s t := by
  refine ⟨?_, ?_⟩
  · rw [← h.user]
    exact h
  · rw [nextUser, if_neg huser, if_neg hpass, h.user]

theorem behaves_user (h : ftpCmdUser env s = some t) : Behaves (text "USER") s t := by
  have hreply : ∀ fmt user, Serves s { { ftpSend s fmt [] with user := user } with user := s.user } :=
    fun fmt _ => serves_reply fmt []
  unfold ftpCmdUser at h
  split at h <;> cases h
  · exact ⟨hreply _ _, by rw [nextUser, if_pos rfl, if_pos ‹_›]⟩
  · exact ⟨hreply _ s.user, by rw [nextUser, if_pos rfl, if_neg ‹_›]; rfl⟩

theorem behaves_pass (h : ftpCmdPass env s = some t) : Behaves (text "PASS") s t := by
  have hreply : ∀ fmt user, Serves s { { ftpSend s fmt [] with user := user } with user := s.user } :=
    fun fmt _ => serves_reply fmt []
  have hnext : ∀ parameters user, nextUser (text "PASS") parameters user =
      if user ≠ .none ∧ parameters = ftpUserPass then .userLoggedIn else user := fun _ _ => by
    rw [nextUser, if_neg (by decide), if_pos rfl]
  unfold ftpCmdPass at h
  split at h
  · cases h
    exact ⟨hreply _ s.user, by rw [hnext, if_neg fun hp => hp.1 ‹_›]; rfl⟩
  split at h <;> cases h
  · exact ⟨hreply _ _, by rw [hnext, if_pos ⟨‹_›, ‹_›⟩]⟩
  · exact ⟨hreply _ s.user, by rw [hnext, if_neg fun hp => ‹¬_› hp.2]; rfl⟩

theorem command_behaves : ∀ cmd ∈ ftpdCommands, ∀ env s t, cmd.2 env s = some t → Behaves cmd.1 s t := by
  unfold ftpdCommands
  simp only [List.forall_mem_cons, List.not_mem_nil, false_implies, implies_true, and_true]
  refine ⟨?_, ?_, ?_, ?_, ?_, ?_, ?_, ?_, ?_, ?_, ?_, ?_, ?_, ?_, ?_, ?_, ?_, ?_, ?_, ?_, ?_, ?_, ?_, ?_, ?_, ?_,
    fun _ _ _ => behaves_user, fun _ _ _ => behaves_pass⟩
  all_goals intro env s t h
  all_goals refine Serves.behaves ?_ (by decide) (by decide)
  exacts [loggedIn_reply h, serves_cwd h, serves_cdup h, serves_mode h, serves_stru h, serves_type h, serves_pasv h,
    serves_port h, serves_directory (fun _ _ => (Quiet.refl _).ftpSend _ _) h,
    serves_directory (fun _ _ => (Quiet.refl _).ftpSend _ _) h,
    serves_directory (fun _ _ => (Quiet.refl _).ftpSend _ _) h, serves_dele h, loggedIn_reply h, serves_retr h,
    serves_stor h, serves_mkd h, serves_rmd h, serves_rnfr h, serves_rnto h, loggedIn_reply h, serves_mdtm h,
    serves_size h, serves_site h, loggedIn_reply h, loggedIn_reply h, serves_auth h]

theorem process_behaves (h : ftpProcessCommand env s = some t) : Behaves s.command s t := by
  unfold ftpProcessCommand at h
  split at h
  · rename_i cmd hfind
    have hname : cmd.1 = s.command := by simpa using List.find?_some hfind
    rw [← hname]
    exact command_behaves cmd (List.mem_of_find?_eq_some hfind) env s t h
  · rename_i hnone
    have hnot : ∀ cmd ∈ ftpdCommands, cmd.1 ≠ s.command := by simpa using hnone
    cases h
    refine (serves_reply ..).behaves (fun heq => ?_) fun heq => ?_
    · exact hnot (text "USER", ftpCmdUser) (by simp [ftpdCommands]) heq.symm
    · exact hnot (text "PASS", ftpCmdPass) (by simp [ftpdCommands]) heq.symm

-- How the loop is left.
inductive Ends (s : Session) : Input → Session → Prop
  | error : Ends s .error s
  | tooLong {pbuf : Payload} {buflen : Nat} {env : Env} {parsed : Parsed} :
      ftpParseCommand pbuf buflen = some parsed → parsed.ret < 0 →
        Ends s (.netbuf pbuf buflen env) { s with command := parsed.command, parameters := parsed.parameters }
  | quit {pbuf : Payload} {buflen : Nat} {env : Env} {parsed : Parsed} :
      ftpParseCommand pbuf buflen = some parsed → parsed.command = text "QUIT" →
        Ends s (.netbuf pbuf buflen env)
          (ftpSend { s with command := parsed.command, parameters := parsed.parameters } "221 Goodbye\r\n" [])

theorem Ends.quiet {input : Input} (h : Ends s input t) : Quiet s t := by
  have hline : ∀ command parameters, Quiet s { s with command, parameters } :=
    fun _ _ => .of_eq rfl rfl rfl rfl rfl
  cases h with
  | error => exact .refl s
  | tooLong => exact hline _ _
  | quit => exact (hline _ _).ftpSend _ _

-- A round is either the work of a command, behind its line, or the end.
theorem round_cases {input : Input} {v : Service} (h : ftpServiceRound s input = some v) :
    (∃ pbuf buflen parsed env t, input = .netbuf pbuf buflen env ∧ ftpParseCommand pbuf buflen = some parsed ∧
      ¬(parsed.ret < 0 ∨ parsed.command = text "QUIT") ∧ v = .serving t ∧
        ftpProcessCommand env { s with command := parsed.command, parameters := parsed.parameters } = some t) ∨
    ∃ t, v = ftpServiceEnd t ∧ Ends s input t := by
  cases input with
  | error => exact .inr ⟨s, (Option.some.inj h).symm, .error⟩
  | netbuf pbuf buflen env =>
      obtain ⟨parsed, hparse, hrest⟩ := Option.bind_eq_some_iff.mp h
      dsimp only at hrest
      split at hrest
      · exact .inr ⟨_, (Option.some.inj hrest).symm, .tooLong hparse ‹_›⟩
      split at hrest
      · exact .inr ⟨_, (Option.some.inj hrest).symm, .quit hparse ‹_›⟩
      · obtain ⟨t, hprocess, rfl⟩ := Option.map_eq_some_iff.mp hrest
        exact .inl ⟨pbuf, buflen, parsed, env, t, rfl, hparse, not_or.mpr ⟨‹_›, ‹_›⟩, rfl, hprocess⟩

-- A session that serves has no data connection, one that has ended no connection.
def Sound : Service → Prop
  | .serving s => Idle s
  | .closed s => Idle s ∧ s.listdataconn = none

theorem sound_step {v w : Service} {input : Input} (hv : Sound v) (h : system.step v input = some w) : Sound w := by
  cases v with
  | closed s => cases h
  | serving s =>
      rcases round_cases h with ⟨_, _, parsed, _, t, _, _, _, rfl, hprocess⟩ | ⟨t, rfl, hends⟩
      · have hline : Quiet s { s with command := parsed.command, parameters := parsed.parameters } :=
          .of_eq rfl rfl rfl rfl rfl
        have hserved := (hline.serves.trans (process_behaves hprocess).serves).idle hv
        exact ⟨⟨hserved.holds, hserved.apart⟩, hserved.dataconn⟩
      · obtain ⟨hidle, hnone⟩ := pasvConClose_idle (hends.quiet.serves.idle hv)
        exact ⟨(dataConClose_serves _).idle hidle, (dataConClose_fields _).2.2.trans hnone⟩

theorem start_idle (old : Session) (ipserver : BitVec 32) : Idle (ftpServiceStart old ipserver) := by
  refine (serves_reply ..).idle ⟨⟨?_, nofun⟩, rfl⟩
  exact Handles.holds_nil.congr fun n => by simp [Session.Living]

theorem sound_of_reachable {v : Service} (hv : system.Reachable v) : Sound v := by
  refine hv.invariant (fun v hinit => ?_) fun v input w hsound _ => sound_step hsound
  obtain ⟨old, ipserver, rfl⟩ := hinit
  exact start_idle old ipserver

theorem Idle.lives (h : Idle s) (n : Nat) :
    (lifeAfter kinds n s.acts).isSome ∧ (lifeAfter kinds n s.acts = some .live ↔ s.listdataconn = some n) := by
  have hliving : s.Living n ↔ s.listdataconn = some n := by simp [Session.Living, h.dataconn]
  by_cases hlive : s.Living n
  · rw [(h.holds.living n hlive).2]
    exact ⟨rfl, iff_of_true rfl (hliving.mp hlive)⟩
  · have hnot := fun heq => hlive (hliving.mpr heq)
    by_cases hlt : n < s.connections
    · rw [h.holds.deleted n hlt hlive]
      exact ⟨rfl, iff_of_false (by decide) hnot⟩
    · rw [h.holds.coming n (by omega)]
      exact ⟨rfl, iff_of_false (by decide) hnot⟩

-- However a session goes on, none of its connections is used before it exists
-- or after it has been deleted, and none is deleted twice. Between two commands only
-- the listener lives, and a session that has ended has deleted all it got.
theorem connections_balanced {v : Service} (hv : system.Reachable v) (n : Nat) :
    (lifeAfter kinds n v.session.acts).isSome ∧
      match v with
      | .serving s => lifeAfter kinds n s.acts = some .live ↔ s.listdataconn = some n
      | .closed s => lifeAfter kinds n s.acts ≠ some .live := by
  have hsound := sound_of_reachable hv
  cases v with
  | serving s => exact hsound.lives n
  | closed s =>
      obtain ⟨hidle, hnone⟩ := hsound
      refine ⟨(hidle.lives n).1, fun hlive => ?_⟩
      rw [(hidle.lives n).2, hnone] at hlive
      cases hlive

def Input.line (command : String) : Input :=
  .netbuf (Cells.write (fun _ => 0) 0 (text command)) (text command).length .succeeding

def Service.ended : Service → Option Session
  | .serving _ => none
  | .closed s => some s

-- A listing in passive mode: the listener and the connection it accepts.
def listing : List Input :=
  [.line "USER user\r\n", .line "PASS user\r\n", .line "PASV\r\n", .line "LIST\r\n", .error]

theorem connections_balanced_list :
    ∃ s, system.run (.serving (ftpServiceStart .fresh 0)) listing = some (.closed s) ∧
      s.connections = 2 ∧ lifeAfter kinds 1 s.acts = some .gone ∧
      lifeAfter kinds 0 s.acts ≠ some .live := by
  have hstart : system.Reachable (.serving (ftpServiceStart .fresh 0)) := .start ⟨.fresh, 0, rfl⟩
  have hends : ((system.run (.serving (ftpServiceStart .fresh 0)) listing).bind Service.ended).any
      (fun s => decide (s.connections = 2 ∧ lifeAfter kinds 1 s.acts = some .gone)) = true := by
    decide +kernel
  obtain ⟨s, hclosed, hs⟩ := (Option.any_eq_true _ _).mp hends
  obtain ⟨v, hrun, hv⟩ := Option.bind_eq_some_iff.mp hclosed
  obtain ⟨htwo, hgone⟩ := of_decide_eq_true hs
  cases v with
  | serving s' => cases hv
  | closed s' =>
      cases hv
      obtain ⟨_, hlistener⟩ := connections_balanced (hstart.run hrun) 0
      exact ⟨s, hrun, htwo, hgone, hlistener⟩

end Ftp

end Carbon
