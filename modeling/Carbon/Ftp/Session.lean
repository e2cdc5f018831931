import Carbon.Word
import Carbon.Library.Transition
import Carbon.Printf.Truncation
import Carbon.Ftp.Command

namespace Carbon

namespace Ftp

open CString
open Printf (Arg)

def ftpBufSize : Nat := 512

inductive User
  | none
  | userNoPass
  | userLoggedIn
  deriving DecidableEq

inductive DcmType
  | notSet
  | passive
  | active
  deriving DecidableEq

-- The fields of FILINFO the server reads.
structure FileInfo where
  fsize : Nat
  fdate : Nat
  ftime : Nat
  dir : Bool
  fname : List UInt8

-- What a session does to the world, in order. The connections of one session
-- are numbered as it gets them.
inductive Act
  | reply (fmt : String) (args : List Arg)
  | stat (path : List UInt8)
  | opendir (path : List UInt8)
  | openFile (path : List UInt8) (create : Bool)
  | closeFile
  | writeFile (bytes : List UInt8)
  | unlink (path : List UInt8)
  | mkdir (path : List UInt8)
  | rename (path target : List UInt8)
  | utime (path : List UInt8) (date time : Nat)
  | getfree
  | new (conn : Nat)
  | bind (conn port : Nat)
  | listen (conn : Nat)
  | accept (listener : Nat) (conn : Option Nat)
  | connect (conn : Nat) (ip : BitVec 32) (port : Nat)
  | send (conn : Nat) (bytes : List UInt8)
  | recv (conn : Nat)
  | close (conn : Nat)
  | delete (conn : Nat)
  deriving DecidableEq

-- What an f_write returns, and how many bytes it takes at most. On a full disk it
-- takes fewer than it was given and returns FR_OK.
structure Written where
  result : Int
  taken : Nat

-- The results of the calls one command makes. No command makes one of them
-- twice, other than the reads, writes and packets of its loop.
structure Env where
  stat : Option FileInfo
  opendir : Bool
  openFile : Bool
  fileSize : Nat
  unlink : Bool
  mkdir : Bool
  rename : Bool
  -- free_clust, csize and n_fatent
  getfree : Option (Nat × Nat × Nat)
  netconnNew : Bool
  bind : Bool
  listen : Bool
  accept : Bool
  connect : Bool
  -- the entries in front of the end of the directory or of an error
  entries : List FileInfo
  -- the blocks in front of an error or, with nothing read, of the end
  blocks : List (List UInt8)
  readFails : Bool
  -- the results of netconn_write on the data connection
  sent : Nat → Int
  -- the packets with their tot_len, in front of the last result of netconn_recv_tcp_pbuf
  packets : List (List UInt8 × Nat)
  received : Int
  written : Nat → Written

structure Session where
  listdataconn : Option Nat
  dataconn : Option Nat
  ipclient : BitVec 32
  ipserver : BitVec 32
  dataPort : Nat
  dataPortIncremented : Nat
  lfn : List UInt8
  command : List UInt8
  parameters : List UInt8
  pathRename : List UInt8
  path : List UInt8
  ftpConNum : Nat
  user : User
  dataConnMode : DcmType
  -- how many connections it got, and what it did so far
  connections : Nat
  acts : List Act

-- Every call succeeds and nothing is transferred.
def Env.succeeding : Env where
  stat := some ⟨0, 0, 0, false, []⟩
  opendir := true
  openFile := true
  fileSize := 0
  unlink := true
  mkdir := true
  rename := true
  getfree := some (0, 0, 2)
  netconnNew := true
  bind := true
  listen := true
  accept := true
  connect := true
  entries := []
  blocks := []
  readFails := false
  sent := fun _ => 0
  packets := []
  received := -15
  written := fun _ => ⟨0, ftpBufSize⟩

-- A structure out of the pool that has not been used.
def Session.fresh : Session where
  listdataconn := none
  dataconn := none
  ipclient := 0
  ipserver := 0
  dataPort := 0
  dataPortIncremented := 0
  lfn := []
  command := []
  parameters := []
  pathRename := []
  path := []
  ftpConNum := 0
  user := .none
  dataConnMode := .notSet
  connections := 0
  acts := []

def Session.act (s : Session) (a : Act) : Session := { s with acts := s.acts ++ [a] }

section Act

variable (s : Session) (a : Act)

@[simp] theorem act_acts : (s.act a).acts = s.acts ++ [a] := rfl

@[simp] theorem act_user : (s.act a).user = s.user := rfl

@[simp] theorem act_listdataconn : (s.act a).listdataconn = s.listdataconn := rfl

@[simp] theorem act_dataconn : (s.act a).dataconn = s.dataconn := rfl

@[simp] theorem act_connections : (s.act a).connections = s.connections := rfl

@[simp] theorem act_path : (s.act a).path = s.path := rfl

@[simp] theorem act_pathRename : (s.act a).pathRename = s.pathRename := rfl

@[simp] theorem act_parameters : (s.act a).parameters = s.parameters := rfl

end Act

-- A call on the data connection. lwIP refuses one without a connection.
def Session.onData (s : Session) (a : Nat → Act) : Session :=
  match s.dataconn with
  | some conn => s.act (a conn)
  | none => s

-- ftp_send by its format and arguments.
def ftpSend (s : Session) (fmt : String) (args : List Arg) : Session := s.act (.reply fmt args)

def str (s : List UInt8) : Arg := .string (some (s ++ [0]))

def int (n : Nat) : Arg := .word (.ofNat 32 n)

def errOk : Int := 0
def errClsd : Int := -15

def ftpDataPort : Nat := 55600
def portIncrementOffset : Nat := 25
def ftpTimeOutS : Nat := 60

def pasvConOpen (env : Env) (s : Session) : Session × Bool :=
  match s.listdataconn with
  | some _ => (s, true)
  | none =>
      if !env.netconnNew then (s, false)
      else
        let conn := s.connections
        let s := { s.act (.new conn) with listdataconn := some conn, connections := conn + 1 }
        let s := s.act (.bind conn s.dataPort)
        if !env.bind then (s, false) else (s.act (.listen conn), env.listen)

def pasvConClose (s : Session) : Session :=
  let s := { s with dataConnMode := .notSet }
  match s.listdataconn with
  | none => s
  | some conn => { (s.act (.close conn)).act (.delete conn) with listdataconn := none }

-- netconn_accept clears the place of the new connection when it fails.
def dataConOpen (env : Env) (s : Session) : Session × Bool :=
  match s.dataConnMode with
  | .notSet => (s, false)
  | .passive =>
      match s.listdataconn with
      | none => (s, false)
      | some listener =>
          if !env.accept then ({ s.act (.accept listener none) with dataconn := none }, false)
          else
            let conn := s.connections
            ({ s.act (.accept listener (some conn)) with dataconn := some conn, connections := conn + 1 }, true)
  | .active =>
      if !env.netconnNew then ({ s with dataconn := none }, false)
      else
        let conn := s.connections
        let s := { s.act (.new conn) with dataconn := some conn, connections := conn + 1 }
        let s := s.act (.bind conn 0)
        if !env.bind then ({ s.act (.delete conn) with dataconn := none }, false)
        else
          let s := s.act (.connect conn s.ipclient s.dataPort)
          if !env.connect then ({ s.act (.delete conn) with dataconn := none }, false) else (s, true)

def dataConClose (s : Session) : Session :=
  let s := { s with dataConnMode := .notSet }
  match s.dataconn with
  | none => s
  | some conn => { (s.act (.close conn)).act (.delete conn) with dataconn := none }

def Session.up (s : Session) : Session := { s with path := pathUpALevel s.path }

-- "are we not yet logged in?"
def loggedIn (s : Session) (body : Session → Option Session) : Option Session :=
  if s.user ≠ .userLoggedIn then some s else body s

-- "can we build a path from the parameters?"
def build (s : Session) (ftpParam : List UInt8) (body : Session → Option Session) : Option Session :=
  (pathBuild s.path ftpParam).bind fun (path, ok) =>
    let s := { s with path }
    if !ok then some (ftpSend s "500 Command line too long\r\n" []) else body s

-- The commands that take a name start alike.
def named (s : Session) (missing : String) (body : Session → Option Session) : Option Session :=
  loggedIn s fun s =>
    if s.parameters.length = 0 then some (ftpSend s missing []) else build s s.parameters body

def noName : String := "501 No file name\r\n"

def noDirectory : String := "501 No directory name\r\n"

def ftpCmdPwd (_ : Env) (s : Session) : Option Session :=
  loggedIn s fun s => some (ftpSend s "257 \"%s\" is your current directory\r\n" [str s.path])

def ftpCmdCwd (env : Env) (s : Session) : Option Session :=
  named s noDirectory fun s =>
    if s.path ≠ text "/" then
      let s := s.act (.stat s.path)
      match env.stat with
      | none => some (ftpSend s "550 Failed to change directory to %s\r\n" [str s.path])
      | some _ => some (ftpSend s "250 Directory successfully changed.\r\n" [])
    else some (ftpSend s "250 Directory successfully changed.\r\n" [])

def ftpCmdCdup (_ : Env) (s : Session) : Option Session :=
  loggedIn s fun s =>
    some (ftpSend { s with path := text "/" } "250 Directory successfully changed to root.\r\n" [])

-- The commands that only look at their parameter.
def ftpCmdMode (_ : Env) (s : Session) : Option Session :=
  loggedIn s fun s =>
    some (if s.parameters = text "S" then ftpSend s "200 S Ok\r\n" []
      else ftpSend s "504 Only S(tream) is suported\r\n" [])

def ftpCmdStru (_ : Env) (s : Session) : Option Session :=
  loggedIn s fun s =>
    some (if s.parameters = text "F" then ftpSend s "200 F Ok\r\n" []
      else ftpSend s "504 Only F(ile) is suported\r\n" [])

def ftpCmdType (_ : Env) (s : Session) : Option Session :=
  loggedIn s fun s =>
    some (if s.parameters = text "A" then ftpSend s "200 TYPE is now ASCII\r\n" []
      else if s.parameters = text "I" then ftpSend s "200 TYPE is now 8-bit binary\r\n" []
      else ftpSend s "504 Unknow TYPE\r\n" [])

def ftpCmdPasv (env : Env) (s : Session) : Option Session :=
  loggedIn s fun s =>
    let s := { s with dataPort :=
      (ftpDataPort + s.dataPortIncremented + s.ftpConNum * portIncrementOffset) % 2 ^ 16 }
    let (s, opened) := pasvConOpen env s
    if opened then
      let s := dataConClose s
      let addr := s.ipserver.toNat
      let s := ftpSend s "227 Entering Passive Mode (%d,%d,%d,%d,%d,%d).\r\n"
        [int (addr &&& 0xFF), int ((addr >>> 8) &&& 0xFF), int ((addr >>> 16) &&& 0xFF),
          int ((addr >>> 24) &&& 0xFF), int (s.dataPort >>> 8), int (s.dataPort &&& 255)]
      some { s with dataConnMode := .passive }
    else
      let s := ftpSend s "425 Can't set connection management to passive\r\n" []
      some { s with dataConnMode := .notSet }

-- "build IP": the octets in front of up to count commas, as uint8_t, and where
-- the last strchr left p.
def portLoop : Nat → Option (List UInt8) → List Nat × Option (List UInt8)
  | 0, p => ([], p)
  | count + 1, some p =>
      let (ip, rest) := portLoop count ((strchr p ',').map List.tail)
      (((atoi p) % 2 ^ 8).toNat :: ip, rest)
  | _ + 1, none => ([], none)

-- IP4_ADDR: the first octet is the lowest.
def ip4Addr (ip : List Nat) : BitVec 32 :=
  .ofNat 32 (ip[0]?.getD 0 + 2 ^ 8 * ip[1]?.getD 0 + 2 ^ 16 * ip[2]?.getD 0 + 2 ^ 24 * ip[3]?.getD 0)

-- p stands behind its comma here; the source moves it there before each atoi.
def ftpCmdPort (_ : Env) (s : Session) : Option Session :=
  loggedIn s fun s =>
    let s := dataConClose s
    if s.parameters.length = 0 then
      some { ftpSend s "501 no parameters given\r\n" [] with dataConnMode := .notSet }
    else
      match portLoop 4 (some s.parameters) with
      | (ip, some p) =>
          let s := { s with dataPort := ((256 * atoi p) % 2 ^ 16).toNat }
          match strchr p ',' with
          | some p =>
              let s := { s with dataPort := ((s.dataPort + atoi p.tail) % 2 ^ 16).toNat }
              let s := { s with ipclient := ip4Addr ip }
              some { ftpSend s "200 PORT command successful\r\n" [] with dataConnMode := .active }
          | none => some { ftpSend s "501 Can't interpret parameters\r\n" [] with dataConnMode := .notSet }
      | (_, none) => some { ftpSend s "501 Can't interpret parameters\r\n" [] with dataConnMode := .notSet }

-- snprintf_ into a buffer of FTP_BUF_SIZE characters, up to its NUL. None of the
-- formats prints a floating point number.
def snprintf (fmt : String) (args : List Arg) : List UInt8 :=
  ((Printf.characters (fun _ _ _ => []) (text fmt ++ [0]) args).map fun r =>
    (r.1.take (ftpBufSize - 1)).takeWhile (· ≠ 0)).getD []

-- The loops over the entries of a directory: the line of each entry goes to the
-- data connection, and nm counts them.
def listEntries (line : FileInfo → List UInt8) : List FileInfo → Session → Nat → Session × Nat
  | [], s, nm => (s, nm)
  | finfo :: rest, s, nm =>
      if finfo.fname = [] then (s, nm)
      else if finfo.fname.head? = some (ascii '.') then listEntries line rest s nm
      else listEntries line rest (s.onData (.send · (line finfo))) ((nm + 1) % 2 ^ 16)

def displayName (s : Session) (finfo : FileInfo) : List UInt8 :=
  if s.lfn.head?.getD 0 = 0 then finfo.fname else s.lfn

def listLine (s : Session) (finfo : FileInfo) : List UInt8 :=
  let name := str (displayName s finfo)
  if s.command ≠ text "LIST" then snprintf "%s\r\n" [name]
  else if finfo.dir then snprintf "+/,\t%s\r\n" [name]
  else snprintf "+r,s%lu,\t%s\r\n" [int finfo.fsize, name]

-- data_time_to_str, a buffer of 25 characters.
def dataTimeToStr (date time : Nat) : List UInt8 :=
  (snprintf "%04d%02d%02d%02d%02d%02d"
    [int (((date &&& 0xFE00) >>> 9) + 1980), int ((date &&& 0x01E0) >>> 5), int (date &&& 0x001F),
      int ((time &&& 0xF800) >>> 11), int ((time &&& 0x07E0) >>> 5), int ((time &&& 0x001F) <<< 1)]).take 24

def mlsdLine (s : Session) (finfo : FileInfo) : List UInt8 :=
  let name := str (displayName s finfo)
  let type := str (if finfo.dir then text "dir" else text "file")
  if finfo.fdate ≠ 0 then
    snprintf "Type=%s;Size=%lu;Modify=%s; %s\r\n"
      [type, int finfo.fsize, str (dataTimeToStr finfo.fdate finfo.ftime), name]
  else snprintf "Type=%s;Size=%lu; %s\r\n" [type, int finfo.fsize, name]

-- The parts ftp_cmd_list and ftp_cmd_mlsd share.
def directory (env : Env) (s : Session) (line : Session → FileInfo → List UInt8)
    (done : Session → Nat → Session) : Option Session :=
  loggedIn s fun s =>
    let s := s.act (.opendir s.path)
    if !env.opendir then some (ftpSend s "550 Can't open directory %s\r\n" [str s.parameters])
    else
      let (s, opened) := dataConOpen env s
      if !opened then some (ftpSend s "425 Can't create connection\r\n" [])
      else
        let s := ftpSend s "150 Accepted data connection\r\n" []
        let (s, nm) := listEntries (line s) env.entries s 0
        some (done (dataConClose s) nm)

def ftpCmdList (env : Env) (s : Session) : Option Session :=
  directory env s listLine fun s _ => ftpSend s "226 Directory send OK.\r\n" []

def ftpCmdMlsd (env : Env) (s : Session) : Option Session :=
  directory env s mlsdLine fun s nm => ftpSend s "226 Options: -a -l, %d matches total\r\n" [int nm]

def ftpCmdDele (env : Env) (s : Session) : Option Session :=
  named s noName fun s =>
    let s := s.act (.stat s.path)
    match env.stat with
    | none => some (ftpSend s.up "550 file %s not found\r\n" [str s.parameters])
    | some _ =>
        let s := s.act (.unlink s.path)
        if !env.unlink then some (ftpSend s.up "450 Can't delete %s\r\n" [str s.parameters])
        else some (ftpSend s "250 Deleted %s\r\n" [str s.parameters]).up

def ftpCmdNoop (_ : Env) (s : Session) : Option Session :=
  loggedIn s fun s => some (ftpSend s "200 Zzz...\r\n" [])

-- The loop of ftp_cmd_retr: block after block to the data connection.
def retrLoop (env : Env) : List (List UInt8) → Nat → Session → Session
  | [], _, s => if env.readFails then ftpSend s "451 Communication error during transfer\r\n" [] else s
  | block :: rest, count, s =>
      if block.length = 0 then s
      else
        let s := s.onData (.send · block)
        let conErr := env.sent count
        if conErr ≠ errOk then
          ftpSend s "426 Error during file transfer: %d\r\n" [.word (.ofInt 32 conErr)]
        else retrLoop env rest (count + 1) s

def ftpCmdRetr (env : Env) (s : Session) : Option Session :=
  named s noName fun s =>
    let s := s.act (.stat s.path)
    match env.stat with
    | none => some (ftpSend s.up "550 File %s not found\r\n" [str s.parameters])
    | some _ =>
        let s := s.act (.openFile s.path false)
        if !env.openFile then some (ftpSend s.up "450 Can't open %s\r\n" [str s.parameters])
        else
          let (s, opened) := dataConOpen env s
          if !opened then some ((ftpSend s.up "425 Can't create connection\r\n" []).act .closeFile)
          else
            let s := ftpSend s "150 Connected to port %u, %lu bytes to download\r\n"
              [int s.dataPort, int env.fileSize]
            let s := retrLoop env env.blocks 0 s
            let s := dataConClose (s.act .closeFile).up
            some (ftpSend s "226 File successfully transferred\r\n" [])

-- The state of the loop of ftp_cmd_stor: the first offset bytes of its buffer and
-- how many writes there were.
structure Stor where
  buf : List UInt8
  writes : Nat

-- The inner loop, over the bytes of a packet that are still to come. buflen
-- counts tot_len down while the copy runs through the payload of the first
-- pbuf; behind its end it is undefined. The result says whether a write failed.
def storPacket (env : Env) : Nat → List UInt8 → Nat → Stor → Session → Option (Stor × Session × Int)
  | 0, _, _, _, _ => none
  | rounds + 1, payload, buflen, b, s =>
      if buflen = 0 then some (b, s, 0)
      else
        let offset := b.buf.length
        let copylen := if buflen ≤ ftpBufSize - offset then buflen else ftpBufSize - offset
        if payload.length < copylen then none
        else
          let b := { b with buf := b.buf ++ payload.take copylen }
          if b.buf.length = ftpBufSize then
            let s := s.act (.writeFile b.buf)
            -- bytes_written is not looked at
            let fileErr := (env.written b.writes).result
            if fileErr ≠ 0 then some ({ b with writes := b.writes + 1 }, s, fileErr)
            else storPacket env rounds (payload.drop copylen) (buflen - copylen) ⟨[], b.writes + 1⟩ s
          else storPacket env rounds (payload.drop copylen) (buflen - copylen) b s

def storLoop (env : Env) : List (List UInt8 × Nat) → Stor → Session → Option (Stor × Session × Int)
  | [], b, s =>
      let s := s.onData .recv
      if env.received = errClsd then some (b, s, 0)
      else some (b, ftpSend s "426 Error during file transfer: %d\r\n" [.word (.ofInt 32 env.received)], 0)
  | (payload, totLen) :: rest, b, s =>
      let s := s.onData .recv
      (storPacket env (totLen + 1) payload totLen b s).bind fun (b, s, fileErr) =>
        if fileErr ≠ 0 then
          some (b, ftpSend s "451 Communication error during transfer\r\n" [], fileErr)
        else storLoop env rest b s

def ftpCmdStor (env : Env) (s : Session) : Option Session :=
  named s noName fun s =>
    let s := s.act (.openFile s.path true)
    if !env.openFile then some (ftpSend s.up "450 Can't open/create %s\r\n" [str s.parameters])
    else
      let (s, opened) := dataConOpen env s
      if !opened then some ((ftpSend s.up "425 Can't create connection\r\n" []).act .closeFile)
      else
        let s := ftpSend s "150 Connected to port %u\r\n" [int s.dataPort]
        (storLoop env env.packets ⟨[], 0⟩ s).map fun (b, s, fileErr) =>
          -- "write the remaining data to file"
          let s := if b.buf.length > 0 ∧ fileErr = 0 then s.act (.writeFile b.buf) else s
          let s := dataConClose (s.act .closeFile).up
          ftpSend s "226 File successfully transferred\r\n" []

-- A directory that has been made stays the working directory.
def ftpCmdMkd (env : Env) (s : Session) : Option Session :=
  named s noDirectory fun s =>
    let s := s.act (.stat s.path)
    match env.stat with
    | some _ => some (ftpSend s.up "521 \"%s\" directory already exists\r\n" [str s.parameters])
    | none =>
        let s := s.act (.mkdir s.path)
        if !env.mkdir then some (ftpSend s.up "550 Can't create \"%s\"\r\n" [str s.parameters])
        else some (ftpSend s "257 \"%s\" created\r\n" [str s.parameters])

def ftpCmdRmd (env : Env) (s : Session) : Option Session :=
  named s noDirectory fun s =>
    let s := s.act (.stat s.path)
    match env.stat with
    | none => some (ftpSend s.up "550 Directory \"%s\" not found\r\n" [str s.parameters])
    | some _ =>
        let s := s.act (.unlink s.path)
        if !env.unlink then some (ftpSend s.up "501 Can't delete \"%s\"\r\n" [str s.parameters])
        else some (ftpSend s "250 \"%s\" removed\r\n" [str s.parameters]).up

-- path_build works on the copy of the path.
def ftpCmdRnfr (env : Env) (s : Session) : Option Session :=
  loggedIn s fun s =>
    if s.parameters.length = 0 then some (ftpSend s noName [])
    else
      (pathBuild s.path s.parameters).map fun (pathRename, ok) =>
        let s := { s with pathRename }
        if !ok then ftpSend s "500 Command line too long\r\n" []
        else
          let s := s.act (.stat s.pathRename)
          match env.stat with
          | none => ftpSend s "550 file \"%s\" not found\r\n" [str s.parameters]
          | some _ => ftpSend s "350 RNFR accepted - file exists, ready for destination\r\n" []

def ftpCmdRnto (env : Env) (s : Session) : Option Session :=
  loggedIn s fun s =>
    if s.parameters.length = 0 then some (ftpSend s noName [])
    else if s.pathRename.length = 0 then some (ftpSend s "503 Need RNFR before RNTO\r\n" [])
    else
      build s s.parameters fun s =>
        let s := s.act (.stat s.path)
        match env.stat with
        | some _ => some (ftpSend s "553 \"%s\" already exists\r\n" [str s.parameters]).up
        | none =>
            let s := s.act (.rename s.pathRename s.path)
            let s :=
              if !env.rename then ftpSend s "451 Rename/move failure\r\n" []
              else ftpSend s "250 File successfully renamed or moved\r\n" []
            some s.up

def ftpCmdFeat (_ : Env) (s : Session) : Option Session :=
  loggedIn s fun s => some (ftpSend s
    "211 Extensions supported:\r\n MDTM\r\n MLSD\r\n SIZE\r\n SITE FREE\r\n211 End.\r\n" [])

def ftpCmdSyst (_ : Env) (s : Session) : Option Session :=
  loggedIn s fun s => some (ftpSend s "215 FTP Server, V1.0\r\n" [])

-- A date and time as date_time_get computes them from its six numbers; the
-- results are uint16_t.
def packDate (years months days : Int) : Nat :=
  (days % 2 ^ 16).toNat ||| ((months * 2 ^ 5) % 2 ^ 16).toNat ||| (((years - 1980) * 2 ^ 9) % 2 ^ 16).toNat

def packTime (hours minutes seconds : Int) : Nat :=
  ((seconds / 2) % 2 ^ 16).toNat ||| ((minutes * 2 ^ 5) % 2 ^ 16).toNat ||| ((hours * 2 ^ 11) % 2 ^ 16).toNat

structure DateTime where
  date : Nat
  time : Nat

-- date_time_get: none if the parameters are not YYYYMMDDHHMMSS and a space. The
-- NULs it writes end each number in front of the one read before.
def dateTimeGet (parameters : List UInt8) : Option DateTime :=
  if parameters.length < 15 ∨ parameters[14]? ≠ some (ascii ' ') then none
  else if ¬(parameters.take 14).all isDigit then none
  else
    let number (first last : Nat) := atoi ((parameters.take last).drop first)
    some ⟨packDate (number 0 4) (number 4 6) (number 6 8), packTime (number 8 10) (number 10 12) (number 12 14)⟩

-- The file name of MDTM, behind the date if there is one.
def dated (parameters : List UInt8) : List UInt8 :=
  if (dateTimeGet parameters).isSome then parameters.drop 15 else parameters

-- The parameters end behind the year once a date has been read. Without a name both
-- the missing name and the root that takes its place are replied to.
def mdtmStart (s : Session) : Session :=
  let cut := if (dateTimeGet s.parameters).isSome then { s with parameters := s.parameters.take 4 } else s
  if (dated s.parameters).length = 0 then ftpSend cut noName [] else cut

def ftpCmdMdtm (env : Env) (s : Session) : Option Session :=
  loggedIn s fun s =>
    let gettime := dateTimeGet s.parameters
    build (mdtmStart s) (dated s.parameters) fun s =>
      let s := s.act (.stat s.path)
      match env.stat with
      | none => some (ftpSend s.up "550 file \"%s\" not found\r\n" [str s.parameters])
      | some finfo =>
          let s := s.up
          match gettime with
          | none => some (ftpSend s "213 %s\r\n" [str (dataTimeToStr finfo.fdate finfo.ftime)])
          | some ⟨date, time⟩ =>
              -- ftps_f_utime always succeeds
              some (ftpSend (s.act (.utime s.path date time)) "200 Ok\r\n" [])

def ftpCmdSize (env : Env) (s : Session) : Option Session :=
  named s noName fun s =>
    let s := s.act (.stat s.path)
    match env.stat with
    | none => some (ftpSend s "550 No such file\r\n" []).up
    | some finfo =>
        if finfo.dir then some (ftpSend s "550 No such file\r\n" []).up
        else some ((ftpSend s "213 %lu\r\n" [int finfo.fsize]).act .closeFile).up

-- A volume whose free space is not known is undefined: its pointer is not set.
def ftpCmdSite (env : Env) (s : Session) : Option Session :=
  loggedIn s fun s =>
    if s.parameters = text "FREE" then
      let s := s.act .getfree
      env.getfree.map fun (freeClust, csize, nFatent) =>
        ftpSend s "211 %lu MB free of %lu MB capacity\r\n"
          [int (uint32 (freeClust * csize) >>> 11), int (uint32 (uint32Sub nFatent 2 * csize) >>> 11)]
    else some (ftpSend s "550 Unknown SITE command %s\r\n" [str s.parameters])

def ftpCmdStat (_ : Env) (s : Session) : Option Session :=
  loggedIn s fun s => some (ftpSend s
    "221 FTP Server status: you will be disconnected after %d minutes of inactivity\r\n"
    [int (ftpTimeOutS / 60)])

def ftpCmdAuth (_ : Env) (s : Session) : Option Session :=
  some (ftpSend s "504 Not available\r\n" [])

def ftpUserName : List UInt8 := text "user"
def ftpUserPass : List UInt8 := text "user"

def ftpCmdUser (_ : Env) (s : Session) : Option Session :=
  if s.parameters = ftpUserName then
    some { ftpSend s "331 OK. Password required\r\n" [] with user := .userNoPass }
  else some (ftpSend s "530 Username not known\r\n" [])

def ftpCmdPass (_ : Env) (s : Session) : Option Session :=
  if s.user = .none then some (ftpSend s "530 User not specified\r\n" [])
  else if s.parameters = ftpUserPass then
    some { ftpSend s "230 OK, logged in as user\r\n" [] with user := .userLoggedIn }
  else some (ftpSend s "530 Password not correct\r\n" [])

def ftpdCommands : List (List UInt8 × (Env → Session → Option Session)) :=
  [(text "PWD", ftpCmdPwd), (text "CWD", ftpCmdCwd), (text "CDUP", ftpCmdCdup), (text "MODE", ftpCmdMode),
    (text "STRU", ftpCmdStru), (text "TYPE", ftpCmdType), (text "PASV", ftpCmdPasv), (text "PORT", ftpCmdPort),
    (text "NLST", ftpCmdList), (text "LIST", ftpCmdList), (text "MLSD", ftpCmdMlsd), (text "DELE", ftpCmdDele),
    (text "NOOP", ftpCmdNoop), (text "RETR", ftpCmdRetr), (text "STOR", ftpCmdStor), (text "MKD", ftpCmdMkd),
    (text "RMD", ftpCmdRmd), (text "RNFR", ftpCmdRnfr), (text "RNTO", ftpCmdRnto), (text "FEAT", ftpCmdFeat),
    (text "MDTM", ftpCmdMdtm), (text "SIZE", ftpCmdSize), (text "SITE", ftpCmdSite), (text "STAT", ftpCmdStat),
    (text "SYST", ftpCmdSyst), (text "AUTH", ftpCmdAuth), (text "USER", ftpCmdUser), (text "PASS", ftpCmdPass)]

-- ftp_process_command, for a command other than QUIT.
def ftpProcessCommand (env : Env) (s : Session) : Option Session :=
  match ftpdCommands.find? fun cmd => cmd.1 = s.command with
  | some cmd => cmd.2 env s
  | none => some (ftpSend s "500 Unknown command\r\n" [])

-- What ftp_read_command returns: a netbuf, or an error. The time outs it waits
-- out are no events.
inductive Input
  | netbuf (pbuf : Payload) (buflen : Nat) (env : Env)
  | error

-- A session in its loop, and one that has left it.
inductive Service
  | serving (s : Session)
  | closed (s : Session)

def Service.session : Service → Session
  | .serving s => s
  | .closed s => s

def ftpVersion : List UInt8 := text "2020-08-20"

-- ftp_service up to its loop. The structure comes from a pool: what the last
-- session left in the fields that are not set here is still there.
def ftpServiceStart (old : Session) (ipserver : BitVec 32) : Session :=
  let s := { old with
    path := text "/"
    pathRename := []
    listdataconn := none
    dataconn := none
    dataPort := 0
    dataConnMode := .notSet
    user := .none
    dataPortIncremented := (old.dataPortIncremented + 1) % portIncrementOffset
    ipserver := ipserver
    connections := 0
    acts := [] }
  ftpSend s "220 -> CMS FTP Server, FTP Version %s\r\n" [str ftpVersion]

-- The end of ftp_service.
def ftpServiceEnd (s : Session) : Service := .closed (dataConClose (pasvConClose s))

-- A round of the loop of ftp_service.
def ftpServiceRound (s : Session) : Input → Option Service
  | .error => some (ftpServiceEnd s)
  | .netbuf pbuf buflen env =>
      (ftpParseCommand pbuf buflen).bind fun parsed =>
        let s := { s with command := parsed.command, parameters := parsed.parameters }
        if parsed.ret < 0 then some (ftpServiceEnd s)
        else if s.command = text "QUIT" then some (ftpServiceEnd (ftpSend s "221 Goodbye\r\n" []))
        else (ftpProcessCommand env s).map Service.serving

def system : Transition.System Service Input where
  initial s := ∃ old ipserver, s = .serving (ftpServiceStart old ipserver)
  step
    | .serving s, input => ftpServiceRound s input
    | .closed _, _ => none

end Ftp

end Carbon
