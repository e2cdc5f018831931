import Carbon.Ftp.Behaviour

namespace Carbon

namespace Ftp

open CString (text)

-- The replies a client gets without being logged in.
def publicReplies : List String :=
  ["504 Not available\r\n", "331 OK. Password required\r\n", "530 Username not known\r\n",
    "530 User not specified\r\n", "230 OK, logged in as user\r\n", "530 Password not correct\r\n",
    "500 Unknown command\r\n", "221 Goodbye\r\n"]

inductive Public : Act → Prop
  | reply {fmt : String} : fmt ∈ publicReplies → Public (.reply fmt [])
  | close (conn : Nat) : Public (.close conn)
  | delete (conn : Nat) : Public (.delete conn)

-- What happens to somebody who is not logged in.
structure Withheld (s t : Session) : Prop where
  keeps : Keeps s t
  acts : ∃ new, t.acts = s.acts ++ new ∧ ∀ a ∈ new, Public a

variable {s t u : Session} {env : Env} {v w : Service} {input : Input}

theorem Withheld.of_eq (hkeeps : Keeps s t) (h : t.acts = s.acts) : Withheld s t :=
  ⟨hkeeps, [], by rw [h, List.append_nil], fun _ ha => absurd ha List.not_mem_nil⟩

theorem Withheld.trans (h : Withheld s t) (h' : Withheld t u) : Withheld s u := by
  obtain ⟨hkeeps, new, hacts, hnew⟩ := h
  obtain ⟨hkeeps', new', hacts', hnew'⟩ := h'
  refine ⟨hkeeps.trans hkeeps', new ++ new', by rw [hacts', hacts, List.append_assoc], fun a ha => ?_⟩
  exact (List.mem_append.mp ha).elim (hnew a) (hnew' a)

theorem Withheld.act {a : Act} (ha : Public a) (hkeeps : Keeps s t) (hacts : t.acts = s.acts ++ [a]) : Withheld s t :=
  ⟨hkeeps, [a], hacts, fun _ hb => List.mem_singleton.mp hb ▸ ha⟩

theorem Withheld.reply {fmt : String} (hfmt : fmt ∈ publicReplies) (hkeeps : Keeps s t)
    (hacts : t.acts = (ftpSend s fmt []).acts) : Withheld s t := .act (.reply hfmt) hkeeps hacts

theorem withheld_loggedIn {body : Session → Option Session} (hs : s.user ≠ .userLoggedIn)
    (h : loggedIn s body = some t) : Withheld s t := by
  rw [loggedIn, if_pos hs] at h
  cases h
  exact .of_eq ⟨rfl, rfl⟩ rfl

theorem withheld_named {missing : String} {body : Session → Option Session} (hs : s.user ≠ .userLoggedIn)
    (h : named s missing body = some t) : Withheld s t := withheld_loggedIn hs h

theorem withheld_directory {line : Session → FileInfo → List UInt8} {done : Session → Nat → Session}
    (hs : s.user ≠ .userLoggedIn) (h : directory env s line done = some t) : Withheld s t := withheld_loggedIn hs h

-- AUTH, USER and PASS look further than at the login.
theorem withheld_auth (h : ftpCmdAuth env s = some t) : Withheld s t := by
  cases h
  exact .reply (by decide) ⟨rfl, rfl⟩ rfl

theorem withheld_user (h : ftpCmdUser env s = some t) : Withheld s t := by
  unfold ftpCmdUser at h
  split at h <;> cases h
  · exact .reply (by decide) ⟨rfl, rfl⟩ rfl
  · exact .reply (by decide) ⟨rfl, rfl⟩ rfl

theorem withheld_pass (h : ftpCmdPass env s = some t) : Withheld s t := by
  unfold ftpCmdPass at h
  split at h
  · cases h
    exact .reply (by decide) ⟨rfl, rfl⟩ rfl
  split at h <;> cases h
  · exact .reply (by decide) ⟨rfl, rfl⟩ rfl
  · exact .reply (by decide) ⟨rfl, rfl⟩ rfl

theorem command_withheld : ∀ cmd ∈ ftpdCommands, ∀ env s t, s.user ≠ .userLoggedIn →
    cmd.2 env s = some t → Withheld s t := by
  unfold ftpdCommands
  simp only [List.forall_mem_cons, List.not_mem_nil, false_implies, implies_true, and_true]
  refine ⟨?_, ?_, ?_, ?_, ?_, ?_, ?_, ?_, ?_, ?_, ?_, ?_, ?_, ?_, ?_, ?_, ?_, ?_, ?_, ?_, ?_, ?_, ?_, ?_, ?_,
    fun _ _ _ _ => withheld_auth, fun _ _ _ _ => withheld_user, fun _ _ _ _ => withheld_pass⟩
  all_goals intro env s t hs h
  all_goals first
    | exact withheld_loggedIn hs h
    | exact withheld_named hs h
    | exact withheld_directory hs h

theorem process_withheld (hs : s.user ≠ .userLoggedIn) (h : ftpProcessCommand env s = some t) : Withheld s t := by
  unfold ftpProcessCommand at h
  split at h
  · exact command_withheld _ (List.mem_of_find?_eq_some ‹_›) env s t hs h
  · cases h
    exact .reply (by decide) ⟨rfl, rfl⟩ rfl

theorem withheld_dataConClose (s : Session) : Withheld s (dataConClose s) := by
  cases hconn : s.dataconn with
  | none =>
      rw [dataConClose_none hconn]
      exact .of_eq ⟨rfl, rfl⟩ rfl
  | some conn =>
      rw [dataConClose_some hconn]
      exact .trans (t := s.act (.close conn)) (.act (.close conn) ⟨rfl, rfl⟩ rfl) (.act (.delete conn) ⟨rfl, rfl⟩ rfl)

theorem withheld_pasvConClose (s : Session) : Withheld s (pasvConClose s) := by
  cases hconn : s.listdataconn with
  | none =>
      rw [pasvConClose_none hconn]
      exact .of_eq ⟨rfl, rfl⟩ rfl
  | some conn =>
      rw [pasvConClose_some hconn]
      exact .trans (t := s.act (.close conn)) (.act (.close conn) ⟨rfl, rfl⟩ rfl) (.act (.delete conn) ⟨rfl, rfl⟩ rfl)

-- The login as the lines of a client determine it.
def nextLogin (user : User) : Input → User
  | .error => user
  | .netbuf pbuf buflen _ =>
      match ftpParseCommand pbuf buflen with
      | none => user
      | some parsed => nextUser parsed.command parsed.parameters user

theorem dataConClose_user (s : Session) : (dataConClose s).user = s.user := (dataConClose_fields s).1

theorem pasvConClose_user (s : Session) : (pasvConClose s).user = s.user := by
  cases hconn : s.listdataconn with
  | none => rw [pasvConClose_none hconn]
  | some conn =>
      rw [pasvConClose_some hconn]
      rfl

theorem Ends.user (h : Ends s input t) : t.user = nextLogin s.user input := by
  cases h with
  | error => rfl
  | tooLong hparse hret =>
      have huser : ¬([] : List UInt8) = ftpUserName := by decide
      have hpass : ¬([] : List UInt8) = ftpUserPass := by decide
      rw [nextLogin, hparse]
      simp only [(parse_parameters hparse).1 hret, nextUser, huser, hpass, and_false, if_false, ite_self]
  | quit hparse hcommand =>
      rw [nextLogin, hparse]
      dsimp only
      rw [hcommand, nextUser, if_neg (by decide), if_neg (by decide)]
      rfl

theorem step_user (h : system.step v input = some w) : w.session.user = nextLogin v.session.user input := by
  cases v with
  | closed s => cases h
  | serving s =>
      rcases round_cases h with ⟨pbuf, buflen, parsed, env, t, rfl, hparse, _, rfl, hprocess⟩ | ⟨t, rfl, hends⟩
      · rw [nextLogin, hparse]
        exact (process_behaves hprocess).user
      · exact (dataConClose_user _).trans ((pasvConClose_user t).trans hends.user)

theorem run_user {inputs : List Input} (h : system.run v inputs = some w) :
    w.session.user = inputs.foldl nextLogin v.session.user := by
  induction inputs generalizing v with
  | nil => cases h; rfl
  | cons input rest ih =>
      obtain ⟨u, hstep, hrest⟩ := Option.bind_eq_some_iff.mp h
      rw [ih hrest, step_user hstep, List.foldl_cons]

theorem step_acts (hv : v.session.user ≠ .userLoggedIn) (h : system.step v input = some w) :
    Withheld v.session w.session := by
  cases v with
  | closed s => cases h
  | serving s =>
      rcases round_cases h with ⟨pbuf, buflen, parsed, env, t, rfl, _, _, rfl, hprocess⟩ | ⟨t, rfl, hends⟩
      · have hwithheld :=
          process_withheld (s := { s with command := parsed.command, parameters := parsed.parameters }) hv hprocess
        exact ⟨⟨hwithheld.keeps.path, hwithheld.keeps.pathRename⟩, hwithheld.acts⟩
      · refine .trans ?_ ((withheld_pasvConClose t).trans (withheld_dataConClose _))
        cases hends with
        | error => exact .of_eq ⟨rfl, rfl⟩ rfl
        | tooLong => exact .of_eq ⟨rfl, rfl⟩ rfl
        | quit => exact .reply (by decide) ⟨rfl, rfl⟩ rfl

-- Who has not sent the user and then the password gets these replies and
-- nothing else: no file is looked at and no connection made for him.
theorem login_required {old : Session} {ipserver : BitVec 32} {inputs : List Input}
    (hrun : system.run (.serving (ftpServiceStart old ipserver)) inputs = some v)
    (hlogin : inputs.foldl nextLogin .none ≠ .userLoggedIn) (hstep : system.step v input = some w) :
    ∃ new, w.session.acts = v.session.acts ++ new ∧ ∀ a ∈ new, Public a :=
  (step_acts (by rw [run_user hrun]; exact hlogin) hstep).acts

-- RETR behind USER, without PASS.
theorem login_required_retr : ∃ v w,
    system.run (.serving (ftpServiceStart .fresh 0)) [.line "USER user\r\n"] = some v ∧
    system.step v (.line "RETR a\r\n") = some w ∧
      ∃ new, w.session.acts = v.session.acts ++ new ∧ ∀ a ∈ new, Public a := by
  have hruns : ((system.run (.serving (ftpServiceStart .fresh 0)) [.line "USER user\r\n"]).bind
      fun v => system.step v (.line "RETR a\r\n")).isSome := by decide +kernel
  obtain ⟨w, hw⟩ := Option.isSome_iff_exists.mp hruns
  obtain ⟨v, hrun, hstep⟩ := Option.bind_eq_some_iff.mp hw
  exact ⟨v, w, hrun, hstep, login_required hrun (by decide +kernel) hstep⟩

end Ftp

end Carbon
