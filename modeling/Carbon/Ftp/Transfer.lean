import Carbon.Library.Blocks
import Carbon.Ftp.Connections

namespace Carbon

namespace Ftp

open CString (text)
open Blocks

def fileWrites (acts : List Act) : List (List UInt8) :=
  acts.filterMap fun
    | .writeFile bytes => some bytes
    | _ => none

theorem fileWrites_append (acts more : List Act) :
    fileWrites (acts ++ more) = fileWrites acts ++ fileWrites more := List.filterMap_append

-- What the file holds after these writes, numbered from k on: of each one the bytes
-- it took.
def Env.stored (env : Env) (k : Nat) : List (List UInt8) → List UInt8
  | [] => []
  | bytes :: rest => bytes.take (env.written k).taken ++ env.stored (k + 1) rest

theorem stored_all {env : Env} {n : Nat} (htaken : ∀ k, n ≤ (env.written k).taken) (k : Nat)
    {writes : List (List UInt8)} (hwrites : ∀ bytes ∈ writes, bytes.length ≤ n) :
    env.stored k writes = writes.flatten := by
  induction writes generalizing k with
  | nil => rfl
  | cons bytes rest ih =>
      obtain ⟨hbytes, hrest⟩ := List.forall_mem_cons.mp hwrites
      rw [Env.stored, List.flatten_cons, List.take_of_length_le (Nat.le_trans hbytes (htaken k)),
        ih (k + 1) hrest]

def Env.writeFails (env : Env) (k : Nat) : Bool := (env.written k).result ≠ 0

variable {s t : Session} {env : Env} {b : Stor}

-- The blocks of a packet behind what the buffer holds, and what the loop leaves.
structure Stored (env : Env) (data : List UInt8) (b : Stor) (s : Session) (b' : Stor) (s' : Session)
    (fileErr : Int) : Prop where
  writes : fileWrites s'.acts =
    fileWrites s.acts ++ attempted env.writeFails b.writes (blocks ftpBufSize (b.buf ++ data))
  failed : fileErr ≠ 0 ↔ stops env.writeFails b.writes (blocks ftpBufSize (b.buf ++ data))
  buf : fileErr = 0 → b'.buf = rest ftpBufSize (b.buf ++ data)
  count : fileErr = 0 → b'.writes = b.writes + (blocks ftpBufSize (b.buf ++ data)).length

-- A block that has been filled is written; the others follow if that went well.
theorem Stored.write {first data : List UInt8} {s' : Session} {b' : Stor} {fileErr : Int}
    (hfirst : (b.buf ++ first).length = ftpBufSize) (hfails : (env.written b.writes).result = 0)
    (h : Stored env data ⟨[], b.writes + 1⟩ (s.act (.writeFile (b.buf ++ first))) b' s' fileErr) :
    Stored env (first ++ data) b s b' s' fileErr := by
  have hsize : 0 < ftpBufSize := by decide
  have hgoes : env.writeFails b.writes = false := decide_eq_false (not_not.mpr hfails)
  have hblocks : blocks ftpBufSize (b.buf ++ (first ++ data)) = (b.buf ++ first) :: blocks ftpBufSize data := by
    rw [← List.append_assoc, blocks_block hsize hfirst]
  have hrest : rest ftpBufSize (b.buf ++ (first ++ data)) = rest ftpBufSize data := by
    rw [← List.append_assoc, rest_block hsize hfirst]
  refine ⟨?_, ?_, fun hzero => ?_, fun hzero => ?_⟩
  · rw [h.writes, act_acts, fileWrites_append, hblocks, attempted, hgoes, List.append_assoc]
    rfl
  · rw [h.failed, hblocks, stops, hgoes, Bool.false_or]
    rfl
  · rw [h.buf hzero, hrest]
    rfl
  · rw [h.count hzero, hblocks, List.length_cons, List.nil_append]
    dsimp only
    omega

theorem Stored.fail {first : List UInt8} (data : List UInt8) (hfirst : (b.buf ++ first).length = ftpBufSize)
    (hfails : (env.written b.writes).result ≠ 0) (b' : Stor) :
    Stored env (first ++ data) b s b' (s.act (.writeFile (b.buf ++ first)))
      (env.written b.writes).result := by
  have hstops : env.writeFails b.writes = true := decide_eq_true hfails
  have hblocks : blocks ftpBufSize (b.buf ++ (first ++ data)) = (b.buf ++ first) :: blocks ftpBufSize data := by
    rw [← List.append_assoc, blocks_block (by decide) hfirst]
  refine ⟨?_, ?_, fun hzero => absurd hzero hfails, fun hzero => absurd hzero hfails⟩
  · rw [act_acts, fileWrites_append, hblocks, attempted, hstops, if_pos rfl]
    rfl
  · rw [hblocks, stops, hstops]
    exact iff_of_true hfails rfl

-- What is left in the buffer goes into one more block.
theorem Stored.last {data : List UInt8} {s' : Session} {b' : Stor} {fileErr : Int}
    (h : Stored env data b s b' s' fileErr) (hb : b = ⟨[], 0⟩) :
    fileWrites (if b'.buf.length > 0 ∧ fileErr = 0 then s'.act (.writeFile b'.buf) else s').acts =
      fileWrites s.acts ++ attempted env.writeFails 0 (chunks ftpBufSize data) := by
  subst hb
  obtain ⟨hwrites, hfailed, hbuf, _⟩ := h
  rw [List.nil_append] at hwrites hfailed hbuf
  by_cases hzero : fileErr = 0
  · have hgoes : stops env.writeFails 0 (blocks ftpBufSize data) = false := by
      rw [← Bool.not_eq_true, ← hfailed]
      exact not_not.mpr hzero
    rw [hbuf hzero, chunks, attempted_append, hgoes]
    by_cases hnil : rest ftpBufSize data = []
    · rw [if_neg (by simp [hnil]), if_pos hnil, hwrites]
      simp [attempted]
    · rw [if_pos ⟨List.length_pos_iff.mpr hnil, hzero⟩, if_neg hnil, act_acts, fileWrites_append, hwrites]
      simp [attempted, fileWrites]
  · rw [if_neg fun hand => hzero hand.2, hwrites, chunks, attempted_append, hfailed.mp hzero, if_pos rfl,
      List.append_nil]

theorem storPacket_stored (env : Env) {rounds buflen : Nat} {payload : List UInt8}
    (hpayload : payload.length = buflen) (hbuf : b.buf.length < ftpBufSize) (hrounds : buflen < rounds) :
    ∃ b' s' fileErr, storPacket env rounds payload buflen b s = some (b', s', fileErr) ∧
      Stored env payload b s b' s' fileErr := by
  induction rounds generalizing payload buflen b s with
  | zero => omega
  | succ rounds ih =>
      unfold storPacket
      by_cases hzero : buflen = 0
      · have hnil : payload = [] := List.length_eq_zero_iff.mp (by omega)
        subst hnil
        rw [if_pos hzero]
        refine ⟨b, s, 0, rfl, ?_⟩
        constructor <;> simp [blocks_short hbuf, rest_short hbuf, attempted, stops]
      rw [if_neg hzero]
      dsimp only
      generalize hcopylen :
        (if buflen ≤ ftpBufSize - b.buf.length then buflen else ftpBufSize - b.buf.length) = copylen
      have hcopy : copylen ≤ buflen ∧ b.buf.length + copylen ≤ ftpBufSize ∧ 0 < copylen ∧
          (copylen = buflen ∨ b.buf.length + copylen = ftpBufSize) := by
        split at hcopylen <;> omega
      obtain ⟨hle, hroom, hpos, hcopied⟩ := hcopy
      have htake : (payload.take copylen).length = copylen := List.length_take_of_le (by omega)
      have hlength : (b.buf ++ payload.take copylen).length = b.buf.length + copylen := by
        rw [List.length_append, htake]
      have hdrop : (payload.drop copylen).length = buflen - copylen := by rw [List.length_drop, hpayload]
      rw [if_neg (by omega)]
      split
      · -- the buffer is full
        rename_i hfull
        split
        · rename_i hfails
          refine ⟨_, _, _, rfl, ?_⟩
          have hstored := Stored.fail (s := s) (payload.drop copylen) hfull hfails
            ⟨b.buf ++ payload.take copylen, b.writes + 1⟩
          rwa [List.take_append_drop] at hstored
        · rename_i hgoes
          obtain ⟨b', s', fileErr, hpacket, hstored⟩ := ih (b := ⟨[], b.writes + 1⟩)
            (s := s.act (.writeFile (b.buf ++ payload.take copylen))) hdrop (show 0 < ftpBufSize by decide)
            (by omega)
          refine ⟨b', s', fileErr, hpacket, ?_⟩
          have hwritten := hstored.write hfull (not_not.mp hgoes)
          rwa [List.take_append_drop] at hwritten
      · -- the packet has been used up
        rename_i hnotfull
        have hall : copylen = payload.length := by omega
        obtain ⟨b', s', fileErr, hpacket, hstored⟩ :=
          ih (b := { b with buf := b.buf ++ payload.take copylen }) (s := s) hdrop (by dsimp only; omega) (by omega)
        refine ⟨b', s', fileErr, hpacket, ?_⟩
        rw [hall, List.take_length, List.drop_length] at hstored
        obtain ⟨hwrites, hfailed, hrest, hcount⟩ := hstored
        rw [List.append_nil] at hwrites hfailed hrest hcount
        exact ⟨hwrites, hfailed, hrest, hcount⟩

-- Sessions with the same writes.
theorem Stored.congr {data : List UInt8} {u u' s' : Session} {b' : Stor} {fileErr : Int}
    (h : Stored env data b u b' s' fileErr) (hs : fileWrites u.acts = fileWrites s.acts)
    (hs' : fileWrites u'.acts = fileWrites s'.acts) : Stored env data b s b' u' fileErr :=
  ⟨by rw [hs', h.writes, hs], h.failed, h.buf, h.count⟩

theorem Stored.trans {first data : List UInt8} {u s' : Session} {bufd b' : Stor} {fileErr : Int}
    (h : Stored env first b s bufd u 0) (h' : Stored env data bufd u b' s' fileErr) :
    Stored env (first ++ data) b s b' s' fileErr := by
  have hsize : 0 < ftpBufSize := by decide
  have hgoes : stops env.writeFails b.writes (blocks ftpBufSize (b.buf ++ first)) = false := by
    rw [← Bool.not_eq_true, ← h.failed]
    exact not_not.mpr rfl
  have hblocks : blocks ftpBufSize (b.buf ++ (first ++ data)) =
      blocks ftpBufSize (b.buf ++ first) ++ blocks ftpBufSize (bufd.buf ++ data) := by
    rw [← List.append_assoc, blocks_append hsize, h.buf rfl]
  refine ⟨?_, ?_, fun hzero => ?_, fun hzero => ?_⟩
  · rw [h'.writes, h.writes, hblocks, attempted_append, hgoes, h.count rfl, List.append_assoc]
    rfl
  · rw [h'.failed, hblocks, stops_append, hgoes, h.count rfl, Bool.false_or]
  · rw [h'.buf hzero, ← List.append_assoc, rest_append hsize (b.buf ++ first), h.buf rfl]
  · rw [h'.count hzero, h.count rfl, hblocks, List.length_append, Nat.add_assoc]

theorem Stored.stop {first data : List UInt8} {s' : Session} {b' : Stor} {fileErr : Int}
    (h : Stored env first b s b' s' fileErr) (hfileErr : fileErr ≠ 0) :
    Stored env (first ++ data) b s b' s' fileErr := by
  have hstops := h.failed.mp hfileErr
  have hblocks : blocks ftpBufSize (b.buf ++ (first ++ data)) = blocks ftpBufSize (b.buf ++ first) ++
      blocks ftpBufSize (rest ftpBufSize (b.buf ++ first) ++ data) := by
    rw [← List.append_assoc, blocks_append (by decide)]
  refine ⟨?_, ?_, fun hzero => absurd hzero hfileErr, fun hzero => absurd hzero hfileErr⟩
  · rw [h.writes, hblocks, attempted_append, hstops, if_pos rfl, List.append_nil]
  · rw [hblocks, stops_append, hstops, Bool.true_or]
    exact iff_of_true hfileErr rfl

theorem fileWrites_onData (s : Session) {a : Nat → Act} (ha : ∀ n, fileWrites [a n] = []) :
    fileWrites (s.onData a).acts = fileWrites s.acts := by
  unfold Session.onData
  split
  · rw [act_acts, fileWrites_append, ha, List.append_nil]
  · rfl

theorem fileWrites_ftpSend (s : Session) (fmt : String) (args : List Printf.Arg) :
    fileWrites (ftpSend s fmt args).acts = fileWrites s.acts := by
  rw [ftpSend, act_acts, fileWrites_append]
  exact List.append_nil _

theorem storLoop_stored (env : Env) {packets : List (List UInt8 × Nat)} (hpackets : ∀ p ∈ packets, p.1.length = p.2)
    (hbuf : b.buf.length < ftpBufSize) :
    ∃ b' s' fileErr, storLoop env packets b s = some (b', s', fileErr) ∧
      Stored env (packets.flatMap Prod.fst) b s b' s' fileErr := by
  induction packets generalizing b s with
  | nil =>
      unfold storLoop
      have hrecv := fileWrites_onData s (a := .recv) fun _ => rfl
      have hnothing : Stored env [] b s b s 0 := by
        constructor <;> simp [blocks_short hbuf, rest_short hbuf, attempted, stops]
      dsimp only
      split
      · exact ⟨_, _, _, rfl, hnothing.congr rfl hrecv⟩
      · exact ⟨_, _, _, rfl, hnothing.congr rfl ((fileWrites_ftpSend ..).trans hrecv)⟩
  | cons packet rest ih =>
      unfold storLoop
      have hrecv := fileWrites_onData s (a := .recv) fun _ => rfl
      obtain ⟨bufd, u, fileErr, hpacket, hstored⟩ := storPacket_stored env (s := s.onData .recv)
        (hpackets packet (List.mem_cons_self ..)) hbuf (Nat.lt_add_one _)
      have hstored := hstored.congr hrecv rfl
      dsimp only
      rw [hpacket, Option.bind_some, List.flatMap_cons]
      dsimp only
      split
      · rename_i hfileErr
        exact ⟨_, _, _, rfl, (hstored.stop hfileErr).congr rfl (fileWrites_ftpSend ..)⟩
      · rename_i hgoes
        cases not_not.mp hgoes
        have hshort : bufd.buf.length < ftpBufSize := by
          rw [hstored.buf rfl]
          exact rest_length (by decide) _
        obtain ⟨b', s', fileErr, hloop, hrest⟩ := ih (b := bufd) (s := u)
          (fun p hp => hpackets p (List.mem_cons_of_mem _ hp)) hshort
        exact ⟨b', s', fileErr, hloop, hstored.trans hrest⟩

-- Opening and closing writes nothing.
theorem fileWrites_dataConOpen (env : Env) (s : Session) :
    fileWrites (dataConOpen env s).1.acts = fileWrites s.acts := by
  have hnew : ∀ more, fileWrites more = [] → fileWrites (s.acts ++ more) = fileWrites s.acts := by
    intro more hmore
    rw [fileWrites_append, hmore, List.append_nil]
  unfold dataConOpen
  split
  · rfl
  · split
    · rfl
    · split <;> exact hnew _ rfl
  · split
    · rfl
    dsimp only
    split
    · simp only [act_acts, List.append_assoc]
      exact hnew _ rfl
    split
    · simp only [act_acts, List.append_assoc]
      exact hnew _ rfl
    · simp only [act_acts, List.append_assoc]
      exact hnew _ rfl

theorem fileWrites_dataConClose (s : Session) : fileWrites (dataConClose s).acts = fileWrites s.acts := by
  cases hconn : s.dataconn with
  | none => rw [dataConClose_none hconn]
  | some conn =>
      rw [dataConClose_some hconn]
      simp only [act_acts, fileWrites_append]
      exact (List.append_nil _).trans (List.append_nil _)

theorem named_eq {missing : String} {body : Session → Option Session} {path : List UInt8}
    (hlogin : s.user = .userLoggedIn) (hparam : s.parameters ≠ [])
    (hbuild : pathBuild s.path s.parameters = some (path, true)) : named s missing body = body { s with path } := by
  have hlength : ¬s.parameters.length = 0 := fun hzero => hparam (List.length_eq_zero_iff.mp hzero)
  unfold named loggedIn build
  rw [if_neg (not_not.mpr hlogin)]
  dsimp only
  rw [if_neg hlength, hbuild]
  rfl

-- STOR hands the data of the client to f_write in blocks of the buffer, however it
-- comes in packets: all of it, or up to the first write that returns an error. The
-- file gets all of it when every write takes what it is given; the reply is success
-- in any case, for short writes too.
theorem stor_writes (hlogin : s.user = .userLoggedIn) (hparam : s.parameters ≠ []) {path : List UInt8}
    (hbuild : pathBuild s.path s.parameters = some (path, true)) (hfile : env.openFile = true)
    (hopen : (dataConOpen env (Session.act { s with path } (.openFile path true))).2 = true)
    (hpackets : ∀ p ∈ env.packets, p.1.length = p.2) :
    ∃ t written, ftpCmdStor env s = some t ∧ fileWrites t.acts = fileWrites s.acts ++ written ∧
      written = attempted env.writeFails 0 (chunks ftpBufSize (env.packets.flatMap Prod.fst)) ∧
      ((∀ k, (env.written k).result = 0) → written.flatten = env.packets.flatMap Prod.fst ∧
        ((∀ k, ftpBufSize ≤ (env.written k).taken) →
          env.stored 0 written = env.packets.flatMap Prod.fst)) ∧
      t.acts.getLast? = some (.reply "226 File successfully transferred\r\n" []) := by
  cases hopened : dataConOpen env (Session.act { s with path } (.openFile path true)) with
  | mk u opened =>
      have hu : fileWrites u.acts = fileWrites s.acts := by
        have hwrites := fileWrites_dataConOpen env (Session.act { s with path } (.openFile path true))
        rw [hopened, act_acts, fileWrites_append] at hwrites
        exact hwrites.trans (List.append_nil _)
      rw [hopened] at hopen
      cases hopen
      obtain ⟨b', s', fileErr, hloop, hstored⟩ := storLoop_stored env (b := ⟨[], 0⟩)
        (s := ftpSend u "150 Connected to port %u\r\n" [int u.dataPort]) hpackets (show 0 < ftpBufSize by decide)
      have hdone : ftpCmdStor env s = some (ftpSend (dataConClose
          ((if b'.buf.length > 0 ∧ fileErr = 0 then s'.act (.writeFile b'.buf) else s').act .closeFile).up)
          "226 File successfully transferred\r\n" []) := by
        unfold ftpCmdStor
        rw [named_eq hlogin hparam hbuild]
        dsimp only
        rw [hfile, hopened]
        dsimp only [Bool.not_true, Bool.false_eq_true, if_false]
        rw [if_neg (by decide), if_neg (by decide), hloop]
        rfl
      refine ⟨_, _, hdone, ?_, rfl, fun hwritten => ?_, List.getLast?_concat ..⟩
      swap
      · have hsize : 0 < ftpBufSize := by decide
        rw [attempted_all fun i _ => decide_eq_false (not_not.mpr (hwritten (0 + i)))]
        refine ⟨flatten_chunks hsize _, fun htaken => ?_⟩
        rw [stored_all htaken 0 (chunks_length hsize _), flatten_chunks hsize]
      have hrest : fileWrites (if b'.buf.length > 0 ∧ fileErr = 0 then s'.act (.writeFile b'.buf) else s').acts =
          fileWrites s.acts ++ attempted env.writeFails 0 (chunks ftpBufSize (env.packets.flatMap Prod.fst)) := by
        rw [← hu, ← fileWrites_ftpSend u "150 Connected to port %u\r\n" [int u.dataPort]]
        exact hstored.last rfl
      rw [fileWrites_ftpSend, fileWrites_dataConClose, Session.up, act_acts, fileWrites_append, hrest]
      exact List.append_nil _

-- Three bytes in two packets, of which a full disk takes one.
def storing : Session :=
  { Session.fresh with
    listdataconn := some 0, connections := 1, parameters := text "a", path := text "/", user := .userLoggedIn,
    dataConnMode := .passive }

def fullDisk : Env :=
  { Env.succeeding with packets := [([1, 2], 2), ([3], 1)], written := fun _ => ⟨0, 1⟩ }

theorem stor_writes_two :
    ∃ t, ftpCmdStor fullDisk storing = some t ∧ fileWrites t.acts = [[1, 2, 3]] ∧
      fullDisk.stored 0 [[1, 2, 3]] = [1] ∧
      t.acts.getLast? = some (.reply "226 File successfully transferred\r\n" []) := by
  obtain ⟨t, _, hstor, hwrites, rfl, _, hreply⟩ := stor_writes (s := storing) rfl (by decide) rfl
    (show fullDisk.openFile = true from rfl) rfl (by decide)
  exact ⟨t, hstor, hwrites.trans (by decide +kernel), by decide, hreply⟩

end Ftp

end Carbon
