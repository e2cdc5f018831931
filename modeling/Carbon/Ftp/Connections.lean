import Carbon.Library.Handles
import Carbon.Ftp.Session

namespace Carbon

namespace Ftp

open Handles (Kinds Holds Life lifeAfter)

-- What lwIP does with the connections of a session.
def kinds : Kinds Act where
  creates
    | .new conn => some conn
    | .accept _ conn => conn
    | _ => none
  uses
    | .bind conn _ | .listen conn | .accept conn _ | .connect conn _ _ | .send conn _ | .recv conn
    | .close conn => [conn]
    | _ => []
  deletes
    | .delete conn => some conn
    | _ => none

def Session.Living (s : Session) (n : Nat) : Prop := s.listdataconn = some n ∨ s.dataconn = some n

-- The connections that live are those the session still points to.
structure Owned (s : Session) : Prop where
  holds : Holds kinds s.acts s.Living s.connections
  apart : ∀ n, s.listdataconn = some n → s.dataconn ≠ some n

-- Between two commands there is no data connection.
structure Idle (s : Session) : Prop extends Owned s where
  dataconn : s.dataconn = none

-- A stretch of a command that leaves the connections alone, other than to send
-- and receive on the data connection.
structure Quiet (s t : Session) : Prop where
  user : t.user = s.user
  listdataconn : t.listdataconn = s.listdataconn
  dataconn : t.dataconn = s.dataconn
  connections : t.connections = s.connections
  acts : ∃ new, t.acts = s.acts ++ new ∧
    ∀ a ∈ new, kinds.creates a = none ∧ kinds.deletes a = none ∧ ∀ n ∈ kinds.uses a, s.dataconn = some n

-- What a command does between USER and PASS.
structure Serves (s t : Session) : Prop where
  user : t.user = s.user
  acts : s.acts <+: t.acts
  idle : Idle s → Idle t

variable {s t u : Session} {env : Env} {a : Act} {conn : Nat}

theorem Quiet.of_eq (huser : t.user = s.user) (hlistdataconn : t.listdataconn = s.listdataconn)
    (hdataconn : t.dataconn = s.dataconn) (hconnections : t.connections = s.connections)
    (hacts : t.acts = s.acts) : Quiet s t :=
  ⟨huser, hlistdataconn, hdataconn, hconnections, [], by rw [hacts, List.append_nil],
    fun _ h => absurd h List.not_mem_nil⟩

theorem Quiet.refl (s : Session) : Quiet s s := .of_eq rfl rfl rfl rfl rfl

theorem Quiet.trans (h : Quiet s t) (h' : Quiet t u) : Quiet s u := by
  obtain ⟨new, hacts, hnew⟩ := h.acts
  obtain ⟨new', hacts', hnew'⟩ := h'.acts
  refine ⟨h'.user.trans h.user, h'.listdataconn.trans h.listdataconn, h'.dataconn.trans h.dataconn,
    h'.connections.trans h.connections, new ++ new', by rw [hacts', hacts, List.append_assoc], fun a ha => ?_⟩
  rcases List.mem_append.mp ha with ha | ha
  · exact hnew a ha
  · rw [← h.dataconn]
    exact hnew' a ha

theorem Quiet.act (h : Quiet s t) (hcreates : kinds.creates a = none) (hdeletes : kinds.deletes a = none)
    (huses : ∀ n ∈ kinds.uses a, t.dataconn = some n) : Quiet s (t.act a) :=
  h.trans ⟨rfl, rfl, rfl, rfl, [a], rfl, by simpa using ⟨hcreates, hdeletes, huses⟩⟩

-- The acts that concern no connection.
theorem Quiet.plain (h : Quiet s t) (ha : (kinds.creates a, kinds.deletes a, kinds.uses a) = (none, none, [])) :
    Quiet s (t.act a) := by
  injection ha with hcreates ha
  injection ha with hdeletes huses
  exact h.act hcreates hdeletes fun n hn => absurd (huses ▸ hn) List.not_mem_nil

theorem Quiet.owned (h : Quiet s t) (hs : Owned s) : Owned t := by
  obtain ⟨new, hacts, hnew⟩ := h.acts
  refine ⟨?_, ?_⟩
  · unfold Session.Living
    rw [hacts, h.connections, h.listdataconn, h.dataconn]
    exact hs.holds.uses fun a ha => ⟨(hnew a ha).1, (hnew a ha).2.1, fun n hn => .inr ((hnew a ha).2.2 n hn)⟩
  · rw [h.listdataconn, h.dataconn]
    exact hs.apart

theorem Quiet.serves (h : Quiet s t) : Serves s t := by
  obtain ⟨new, hacts, _⟩ := h.acts
  exact ⟨h.user, ⟨new, hacts.symm⟩, fun hs => ⟨h.owned hs.toOwned, h.dataconn.trans hs.dataconn⟩⟩

theorem Serves.refl (s : Session) : Serves s s := (Quiet.refl s).serves

theorem Serves.trans (h : Serves s t) (h' : Serves t u) : Serves s u :=
  ⟨h'.user.trans h.user, h.acts.trans h'.acts, fun hs => h'.idle (h.idle hs)⟩

-- Creating and deleting, one lemma for each pointer.
theorem Idle.newData (h : Idle s) (hcreates : kinds.creates a = some s.connections)
    (hdeletes : kinds.deletes a = none) (huses : ∀ n ∈ kinds.uses a, s.Living n) :
    Owned { s.act a with dataconn := some s.connections, connections := s.connections + 1 } := by
  refine ⟨(h.holds.create hcreates hdeletes huses).congr fun n => ?_, fun n hn heq => ?_⟩
  · simp only [Session.Living, act_listdataconn, h.dataconn, Option.some.injEq, reduceCtorEq, or_false]
    rw [or_comm, eq_comm]
  · have hlt := (h.holds.living n (.inl hn)).1
    cases heq
    exact absurd hlt (Nat.lt_irrefl _)

theorem Owned.newListener (h : Owned s) (hnone : s.listdataconn = none) :
    Owned { s.act (.new s.connections) with
      listdataconn := some s.connections, connections := s.connections + 1 } := by
  refine ⟨(h.holds.create rfl rfl (fun n hn => absurd hn List.not_mem_nil)).congr fun n => ?_, fun n hn heq => ?_⟩
  · simp only [Session.Living, act_dataconn, hnone, Option.some.injEq, reduceCtorEq, false_or]
    rw [eq_comm]
  · have hlt := (h.holds.living n (.inr heq)).1
    cases hn
    exact absurd hlt (Nat.lt_irrefl _)

theorem Owned.act (h : Owned s) (hcreates : kinds.creates a = none) (hdeletes : kinds.deletes a = none)
    (huses : ∀ n ∈ kinds.uses a, s.Living n) : Owned (s.act a) :=
  ⟨h.holds.use hcreates hdeletes huses, h.apart⟩

theorem Owned.deleteData (h : Owned s) (hconn : s.dataconn = some conn) :
    Idle { s.act (.delete conn) with dataconn := none } := by
  refine ⟨⟨(h.holds.delete rfl rfl rfl (.inr hconn)).congr fun n => ?_, fun n _ => by simp⟩, rfl⟩
  simp only [Session.Living, act_listdataconn, hconn, Option.some.injEq, reduceCtorEq, or_false]
  constructor
  · intro hn
    exact ⟨.inl hn, fun heq => h.apart n hn (by rw [hconn, heq])⟩
  · rintro ⟨hn | hn, hne⟩
    exacts [hn, absurd hn.symm hne]

theorem Owned.deleteListener (h : Owned s) (hconn : s.listdataconn = some conn) :
    Owned { s.act (.delete conn) with listdataconn := none } := by
  refine ⟨(h.holds.delete rfl rfl rfl (.inl hconn)).congr fun n => ?_, fun n hn => by simp at hn⟩
  simp only [Session.Living, act_dataconn, hconn, Option.some.injEq, reduceCtorEq, false_or]
  constructor
  · intro hn
    exact ⟨.inr hn, fun heq => h.apart conn hconn (by rw [← heq, hn])⟩
  · rintro ⟨hn | hn, hne⟩
    exacts [absurd hn.symm hne, hn]

theorem dataConClose_none (h : s.dataconn = none) :
    dataConClose s = { s with dataConnMode := .notSet } := by
  simp only [dataConClose, h]

theorem dataConClose_some (h : s.dataconn = some conn) :
    dataConClose s =
      { (Session.act { s with dataConnMode := .notSet } (.close conn)).act (.delete conn) with
        dataconn := none } := by
  simp only [dataConClose, h]

theorem pasvConClose_none (h : s.listdataconn = none) :
    pasvConClose s = { s with dataConnMode := .notSet } := by
  simp only [pasvConClose, h]

theorem pasvConClose_some (h : s.listdataconn = some conn) :
    pasvConClose s = { (Session.act { s with dataConnMode := .notSet } (.close conn)).act (.delete conn) with
      listdataconn := none } := by
  simp only [pasvConClose, h]

theorem dataConClose_idle (h : Owned s) : Idle (dataConClose s) := by
  cases hconn : s.dataconn with
  | none =>
      rw [dataConClose_none hconn]
      exact ⟨⟨h.holds, h.apart⟩, hconn⟩
  | some conn =>
      rw [dataConClose_some hconn]
      have hclosed : Owned (Session.act { s with dataConnMode := .notSet } (.close conn)) :=
        Owned.act ⟨h.holds, h.apart⟩ rfl rfl fun n hn => .inr (by rw [List.mem_singleton.mp hn]; exact hconn)
      exact hclosed.deleteData hconn

theorem dataConClose_fields (s : Session) : (dataConClose s).user = s.user ∧ s.acts <+: (dataConClose s).acts ∧
    (dataConClose s).listdataconn = s.listdataconn := by
  cases hconn : s.dataconn with
  | none =>
      rw [dataConClose_none hconn]
      exact ⟨rfl, List.prefix_refl _, rfl⟩
  | some conn =>
      rw [dataConClose_some hconn]
      exact ⟨rfl, ⟨_, (List.append_assoc ..).symm⟩, rfl⟩

theorem dataConClose_serves (s : Session) : Serves s (dataConClose s) :=
  ⟨(dataConClose_fields s).1, (dataConClose_fields s).2.1, fun h => dataConClose_idle h.toOwned⟩

theorem pasvConClose_idle (h : Idle s) : Idle (pasvConClose s) ∧ (pasvConClose s).listdataconn = none := by
  cases hconn : s.listdataconn with
  | none =>
      rw [pasvConClose_none hconn]
      exact ⟨⟨⟨h.holds, h.apart⟩, h.dataconn⟩, hconn⟩
  | some conn =>
      rw [pasvConClose_some hconn]
      have hclosed : Owned (Session.act { s with dataConnMode := .notSet } (.close conn)) :=
        Owned.act ⟨h.holds, h.apart⟩ rfl rfl fun n hn => .inl (by rw [List.mem_singleton.mp hn]; exact hconn)
      exact ⟨⟨hclosed.deleteListener hconn, h.dataconn⟩, rfl⟩

theorem Serves.use (hcreates : kinds.creates a = none) (hdeletes : kinds.deletes a = none)
    (huses : ∀ n ∈ kinds.uses a, s.Living n) : Serves s (s.act a) :=
  ⟨rfl, ⟨[a], rfl⟩, fun h => ⟨h.toOwned.act hcreates hdeletes huses, h.dataconn⟩⟩

theorem pasvConOpen_serves (env : Env) (s : Session) : Serves s (pasvConOpen env s).1 := by
  unfold pasvConOpen
  cases hconn : s.listdataconn with
  | some conn => exact .refl s
  | none =>
      dsimp only
      split
      · exact .refl s
      · have hnew : Serves s { s.act (.new s.connections) with
            listdataconn := some s.connections, connections := s.connections + 1 } :=
          ⟨rfl, ⟨_, rfl⟩, fun h => ⟨h.toOwned.newListener hconn, h.dataconn⟩⟩
        have hbind := hnew.trans (Serves.use (a := .bind s.connections s.dataPort) rfl rfl
          fun n hn => .inl (by rw [List.mem_singleton.mp hn]))
        split
        · exact hbind
        · exact hbind.trans (Serves.use (a := .listen s.connections) rfl rfl
            fun n hn => .inl (by rw [List.mem_singleton.mp hn]; rfl))

-- Between data_con_open and data_con_close there may be a data connection.
structure Opens (s t : Session) (opened : Bool) : Prop where
  user : t.user = s.user
  acts : s.acts <+: t.acts
  owned : Idle s → Owned t
  failed : opened = false → Idle s → Idle t

theorem Opens.refl (s : Session) : Opens s s false :=
  ⟨rfl, List.prefix_refl _, fun h => h.toOwned, fun _ h => h⟩

theorem Opens.of_owned (huser : t.user = s.user) (hacts : s.acts <+: t.acts) (howned : Idle s → Owned t) :
    Opens s t true :=
  ⟨huser, hacts, howned, nofun⟩

theorem Opens.of_idle (huser : t.user = s.user) (hacts : s.acts <+: t.acts) (hidle : Idle s → Idle t) :
    Opens s t false :=
  ⟨huser, hacts, fun h => (hidle h).toOwned, fun _ => hidle⟩

theorem Idle.clear (h : Idle s) : { s with dataconn := none } = s := by rw [← h.dataconn]

theorem dataConOpen_opens (env : Env) (s : Session) :
    Opens s (dataConOpen env s).1 (dataConOpen env s).2 := by
  unfold dataConOpen
  split
  · exact .refl s
  · -- passive: the listener accepts
    split
    · exact .refl s
    · rename_i listener hlistener
      have huses : ∀ n ∈ [listener], s.Living n := fun n hn => .inl (by rw [List.mem_singleton.mp hn, hlistener])
      split
      · refine .of_idle rfl (List.prefix_append ..) fun h => ?_
        have haccept : Idle (s.act (.accept listener none)) := ⟨h.toOwned.act rfl rfl huses, h.dataconn⟩
        exact haccept.clear ▸ haccept
      · exact .of_owned rfl (List.prefix_append ..)
          fun h => h.newData (a := .accept listener (some s.connections)) rfl rfl huses
  · -- active: a new connection connects
    split
    · exact .of_idle rfl (List.prefix_refl _) fun h => h.clear ▸ h
    · dsimp only
      have hnew : Idle s → Owned { s.act (.new s.connections) with
          dataconn := some s.connections, connections := s.connections + 1 } :=
        fun h => h.newData rfl rfl fun n hn => absurd hn List.not_mem_nil
      have hbind := fun h => (hnew h).act (a := .bind s.connections 0) rfl rfl
        fun n hn => .inr (by rw [List.mem_singleton.mp hn])
      have hconnect := fun h => (hbind h).act (a := .connect s.connections s.ipclient s.dataPort) rfl rfl
        fun n hn => .inr (by rw [List.mem_singleton.mp hn]; rfl)
      split
      · exact .of_idle rfl (by simp) fun h => (hbind h).deleteData rfl
      split
      · exact .of_idle rfl (by simp) fun h => (hconnect h).deleteData rfl
      · exact .of_owned rfl (by simp) hconnect

theorem Quiet.ftpSend (h : Quiet s t) (fmt : String) (args : List Printf.Arg) : Quiet s (ftpSend t fmt args) :=
  h.plain rfl

theorem Quiet.path (h : Quiet s t) (path : List UInt8) : Quiet s { t with path } :=
  h.trans (.of_eq rfl rfl rfl rfl rfl)

theorem Quiet.mode (h : Quiet s t) (dataConnMode : DcmType) : Quiet s { t with dataConnMode } :=
  h.trans (.of_eq rfl rfl rfl rfl rfl)

theorem Quiet.address (h : Quiet s t) (dataPort : Nat) (ipclient : BitVec 32) :
    Quiet s { t with dataPort, ipclient } :=
  h.trans (.of_eq rfl rfl rfl rfl rfl)

theorem Quiet.up (h : Quiet s t) : Quiet s t.up := h.path _

theorem Quiet.onData (h : Quiet s t) {a : Nat → Act} (hcreates : ∀ n, kinds.creates (a n) = none)
    (hdeletes : ∀ n, kinds.deletes (a n) = none) (huses : ∀ n, kinds.uses (a n) = [n]) :
    Quiet s (t.onData a) := by
  unfold Session.onData
  cases hconn : t.dataconn with
  | none => exact h
  | some conn =>
      refine h.act (hcreates conn) (hdeletes conn) fun n hn => ?_
      rw [huses] at hn
      rw [List.mem_singleton.mp hn, hconn]

-- A stretch that leaves the paths alone too.
structure Keeps (s t : Session) : Prop where
  path : t.path = s.path
  pathRename : t.pathRename = s.pathRename

theorem Keeps.refl (s : Session) : Keeps s s := ⟨rfl, rfl⟩

theorem Keeps.trans (h : Keeps s t) (h' : Keeps t u) : Keeps s u :=
  ⟨h'.path.trans h.path, h'.pathRename.trans h.pathRename⟩

-- What opening and closing keep.
theorem dataConClose_keeps (s : Session) : Keeps s (dataConClose s) := by
  unfold dataConClose
  dsimp only
  split <;> exact ⟨rfl, rfl⟩

theorem pasvConClose_keeps (s : Session) : Keeps s (pasvConClose s) := by
  unfold pasvConClose
  dsimp only
  split <;> exact ⟨rfl, rfl⟩

theorem pasvConOpen_keeps (env : Env) (s : Session) : Keeps s (pasvConOpen env s).1 := by
  unfold pasvConOpen
  split
  · exact .refl s
  split
  · exact .refl s
  dsimp only
  split <;> exact ⟨rfl, rfl⟩

theorem dataConOpen_keeps (env : Env) (s : Session) : Keeps s (dataConOpen env s).1 := by
  unfold dataConOpen
  split
  · exact .refl s
  · split
    · exact .refl s
    · split <;> exact ⟨rfl, rfl⟩
  · split
    · exact ⟨rfl, rfl⟩
    dsimp only
    split
    · exact ⟨rfl, rfl⟩
    split <;> exact ⟨rfl, rfl⟩

structure Steady (s t : Session) : Prop where
  quiet : Quiet s t
  keeps : Keeps s t

theorem Steady.refl (s : Session) : Steady s s := ⟨.refl s, .refl s⟩

theorem Steady.plain (h : Steady s t) (ha : (kinds.creates a, kinds.deletes a, kinds.uses a) = (none, none, [])) :
    Steady s (t.act a) :=
  ⟨h.quiet.plain ha, h.keeps.trans ⟨rfl, rfl⟩⟩

theorem Steady.ftpSend (h : Steady s t) (fmt : String) (args : List Printf.Arg) : Steady s (ftpSend t fmt args) :=
  h.plain rfl

theorem Steady.onData (h : Steady s t) {a : Nat → Act} (hcreates : ∀ n, kinds.creates (a n) = none)
    (hdeletes : ∀ n, kinds.deletes (a n) = none) (huses : ∀ n, kinds.uses (a n) = [n]) :
    Steady s (t.onData a) := by
  refine ⟨h.quiet.onData hcreates hdeletes huses, h.keeps.trans ?_⟩
  unfold Session.onData
  split <;> exact ⟨rfl, rfl⟩

-- The loops of the transfers.
theorem listEntries_steady {line : FileInfo → List UInt8} {entries : List FileInfo} {nm : Nat} (h : Steady s t) :
    Steady s (listEntries line entries t nm).1 := by
  induction entries generalizing t nm with
  | nil => exact h
  | cons finfo rest ih =>
      unfold listEntries
      split
      · exact h
      split
      · exact ih h
      · exact ih (h.onData (fun _ => rfl) (fun _ => rfl) fun _ => rfl)

theorem retrLoop_steady (env : Env) (blocks : List (List UInt8)) (count : Nat) (h : Steady s t) :
    Steady s (retrLoop env blocks count t) := by
  induction blocks generalizing t count with
  | nil =>
      unfold retrLoop
      split
      · exact h.ftpSend _ _
      · exact h
  | cons block rest ih =>
      unfold retrLoop
      have hsend : Steady s (t.onData (.send · block)) := h.onData (fun _ => rfl) (fun _ => rfl) fun _ => rfl
      split
      · exact h
      dsimp only
      split
      · exact hsend.ftpSend _ _
      · exact ih _ hsend

theorem storPacket_steady {rounds : Nat} {payload : List UInt8} {buflen : Nat} {b : Stor} {r : Stor × Session × Int}
    (h : Steady s t) (hstor : storPacket env rounds payload buflen b t = some r) : Steady s r.2.1 := by
  induction rounds generalizing payload buflen b t with
  | zero => cases hstor
  | succ rounds ih =>
      unfold storPacket at hstor
      split at hstor
      · cases hstor
        exact h
      dsimp only at hstor
      generalize (if buflen ≤ _ then _ else _) = copylen at hstor
      split at hstor
      · cases hstor
      split at hstor
      · have hwrite := h.plain (a := .writeFile (b.buf ++ payload.take copylen)) rfl
        split at hstor
        · cases hstor
          exact hwrite
        · exact ih hwrite hstor
      · exact ih h hstor

theorem storLoop_steady {packets : List (List UInt8 × Nat)} {b : Stor} {r : Stor × Session × Int} (h : Steady s t)
    (hstor : storLoop env packets b t = some r) : Steady s r.2.1 := by
  induction packets generalizing b t with
  | nil =>
      unfold storLoop at hstor
      have hrecv : Steady s (t.onData .recv) := h.onData (fun _ => rfl) (fun _ => rfl) fun _ => rfl
      dsimp only at hstor
      split at hstor <;> cases hstor
      · exact hrecv
      · exact hrecv.ftpSend _ _
  | cons packet rest ih =>
      unfold storLoop at hstor
      have hrecv : Steady s (t.onData .recv) := h.onData (fun _ => rfl) (fun _ => rfl) fun _ => rfl
      obtain ⟨⟨b, s', fileErr⟩, hpacket, hrest⟩ := Option.bind_eq_some_iff.mp hstor
      have hsteady := storPacket_steady hrecv hpacket
      dsimp only at hrest
      split at hrest
      · cases hrest
        exact hsteady.ftpSend _ _
      · exact ih hsteady hrest

end Ftp

end Carbon
