import Carbon.Library.Cells
import Carbon.Ftp.Path

namespace Carbon

namespace Ftp

open CString

def FTP_CMD_SIZE : Nat := 5

-- The memory from the payload of the received netbuf on. Its first buflen bytes
-- are the payload; the parser also looks at the byte behind.
abbrev Payload := Nat → UInt8

-- The copy loop: how many letters the command has.
def commandLoop (pbuf : Payload) (buflen : Nat) : Nat → Nat → Nat
  | 0, i => i
  | room + 1, i =>
      if !isAlpha (pbuf i) then i
      else if i + 1 < buflen ∧ i + 1 < FTP_CMD_SIZE - 1 then commandLoop pbuf buflen room (i + 1) else i + 1

-- "remove leading spaces for parameters". The index is an int8_t: one more space
-- than it can count takes it in front of the payload.
def skipSpaces (pbuf : Payload) : Nat → Nat → Option Nat
  | 0, _ => none
  | room + 1, i => if pbuf i = ascii ' ' then skipSpaces pbuf room (i + 1) else some i

-- "search for the end of the parameter string"
def parameterLoop (pbuf : Payload) (buflen i : Nat) : Nat → Nat → Nat
  | 0, ret => ret
  | room + 1, ret =>
      if pbuf (i + ret) ≠ ascii '\n' ∧ pbuf (i + ret) ≠ ascii '\r' ∧ i + ret < buflen then
        parameterLoop pbuf buflen i room (ret + 1)
      else ret

structure Parsed where
  ret : Int
  command : List UInt8
  parameters : List UInt8

-- ftp_parse_command. strncpy ends at a NUL in the parameters, ret does not.
def ftpParseCommand (pbuf : Payload) (buflen : Nat) : Option Parsed :=
  if buflen = 0 then some ⟨0, [], []⟩
  else
    let i := commandLoop pbuf buflen (FTP_CMD_SIZE - 1) 0
    let command := Cells.read pbuf 0 i
    if pbuf i ≠ ascii ' ' then some ⟨0, command, []⟩
    else
      (skipSpaces pbuf (2 ^ 7 - i) i).map fun i =>
        let ret := parameterLoop pbuf buflen i buflen 0
        if ret + 1 ≥ ftpParamSize then ⟨-1, command, []⟩
        else ⟨ret, command, (Cells.read pbuf i ret).takeWhile (· ≠ 0)⟩

variable {pbuf : Payload} {buflen : Nat} {parsed : Parsed}

-- An error leaves no parameters, and those there are fit their buffer.
theorem parse_parameters (h : ftpParseCommand pbuf buflen = some parsed) :
    (parsed.ret < 0 → parsed.parameters = []) ∧ parsed.parameters.length < ftpParamSize := by
  have hsize : 0 < ftpParamSize := by decide
  unfold ftpParseCommand at h
  split at h
  · cases h
    exact ⟨fun _ => rfl, hsize⟩
  dsimp only at h
  split at h
  · cases h
    exact ⟨fun _ => rfl, hsize⟩
  obtain ⟨i, _, rfl⟩ := Option.map_eq_some_iff.mp h
  split
  · exact ⟨fun _ => rfl, hsize⟩
  · have hle := (List.takeWhile_prefix (· ≠ 0)
      (l := Cells.read pbuf i (parameterLoop pbuf buflen i buflen 0))).length_le
    rw [Cells.length_read] at hle
    exact ⟨fun hneg => absurd hneg (Int.not_lt.mpr (Int.natCast_nonneg _)), by dsimp only; omega⟩

theorem commandLoop_eq {n : Nat} (hletters : ∀ j < n, isAlpha (pbuf j) = true) (hn : n ≤ buflen)
    (hsize : n ≤ FTP_CMD_SIZE - 1) (hstop : n = FTP_CMD_SIZE - 1 ∨ isAlpha (pbuf n) = false) {room i : Nat}
    (hroom : room + i = FTP_CMD_SIZE - 1) (hi : i ≤ n) : commandLoop pbuf buflen room i = n := by
  induction room generalizing i with
  | zero =>
      unfold commandLoop
      omega
  | succ room ih =>
      unfold commandLoop
      by_cases hend : i = n
      · -- behind the last letter
        subst hend
        have hother : isAlpha (pbuf i) = false := hstop.resolve_left (by omega)
        simp only [hother, Bool.not_false, if_true]
      · simp only [hletters i (by omega), Bool.not_true, Bool.false_eq_true, if_false]
        split
        · exact ih (by omega) (by omega)
        · omega

theorem skipSpaces_eq {n room i : Nat} (hspaces : ∀ j, i ≤ j → j < n → pbuf j = ascii ' ')
    (hother : pbuf n ≠ ascii ' ') (hroom : n < i + room) (hi : i ≤ n) : skipSpaces pbuf room i = some n := by
  induction room generalizing i with
  | zero => omega
  | succ room ih =>
      unfold skipSpaces
      by_cases hend : i = n
      · rw [hend, if_neg hother]
      · rw [if_pos (hspaces i (Nat.le_refl _) (by omega))]
        exact ih (fun j hj => hspaces j (by omega)) (by omega) (by omega)

theorem parameterLoop_eq {n i room ret : Nat}
    (hinside : ∀ j < n, pbuf (i + j) ≠ ascii '\n' ∧ pbuf (i + j) ≠ ascii '\r') (hn : i + n ≤ buflen)
    (hstop : i + n = buflen ∨ pbuf (i + n) = ascii '\n' ∨ pbuf (i + n) = ascii '\r')
    (hroom : n ≤ room + ret) (hret : ret ≤ n) : parameterLoop pbuf buflen i room ret = n := by
  induction room generalizing ret with
  | zero =>
      unfold parameterLoop
      omega
  | succ room ih =>
      unfold parameterLoop
      by_cases hend : ret = n
      · subst hend
        rw [if_neg]
        rintro ⟨hline, hreturn, hlt⟩
        rcases hstop with hlast | hnewline | hcarriage
        · omega
        · exact hline hnewline
        · exact hreturn hcarriage
      · obtain ⟨hline, hreturn⟩ := hinside ret (by omega)
        rw [if_pos ⟨hline, hreturn, by omega⟩]
        exact ih (by omega) (by omega)

-- A line a client sends: a command, blanks, a parameter and what ends it.
structure Line where
  command : List UInt8
  blanks : Nat
  parameters : List UInt8
  ending : List UInt8

def Line.bytes (l : Line) : List UInt8 :=
  l.command ++ (List.replicate l.blanks (ascii ' ') ++ (l.parameters ++ l.ending))

structure Line.Valid (l : Line) : Prop where
  letters : ∀ ch ∈ l.command, isAlpha ch = true
  nonempty : l.command ≠ []
  size : l.command.length ≤ FTP_CMD_SIZE - 1
  blank : 1 ≤ l.blanks
  index : l.command.length + l.blanks < 2 ^ 7
  parameters : ∀ ch ∈ l.parameters, ch ≠ ascii '\n' ∧ ch ≠ ascii '\r' ∧ ch ≠ 0
  first : l.parameters.head? ≠ some (ascii ' ')
  ends : l.ending.head? = some (ascii '\n') ∨ l.ending.head? = some (ascii '\r') ∨
    l.ending = [] ∧ l.parameters ≠ []

-- What a line says is what the parser finds, for all bytes behind the line; a
-- parameter too long for its buffer is an error.
theorem parse_line {l : Line} (hl : l.Valid) (hholds : Cells.read pbuf 0 l.bytes.length = l.bytes) :
    ftpParseCommand pbuf l.bytes.length = some
      (if l.parameters.length + 1 ≥ ftpParamSize then ⟨-1, l.command, []⟩
        else ⟨l.parameters.length, l.command, l.parameters⟩) := by
  obtain ⟨hcommand, hrest⟩ := Cells.read_eq_append.mp hholds
  obtain ⟨hblanks, hrest⟩ := Cells.read_eq_append.mp hrest
  obtain ⟨hparameters, hending⟩ := Cells.read_eq_append.mp hrest
  rw [Nat.zero_add] at hblanks hparameters hending
  rw [List.length_replicate] at hparameters hending
  have hpos := List.length_pos_iff.mpr hl.nonempty
  have hblank := hl.blank
  have hindex := hl.index
  have hlength : l.bytes.length =
      l.command.length + l.blanks + l.parameters.length + l.ending.length := by
    simp only [Line.bytes, List.length_append, List.length_replicate]
    omega
  -- the bytes between the command and the parameters
  have hspace : ∀ j, l.command.length ≤ j → j < l.command.length + l.blanks → pbuf j = ascii ' ' := by
    intro j hle hlt
    have hj := Cells.getElem_of_read hblanks (k := j - l.command.length) (by simp; omega)
    rw [Nat.add_sub_cancel' hle, List.getElem_replicate] at hj
    exact hj
  have hloop : commandLoop pbuf l.bytes.length (FTP_CMD_SIZE - 1) 0 = l.command.length := by
    refine commandLoop_eq (fun j hj => ?_) (by omega) hl.size (.inr ?_) rfl (Nat.zero_le _)
    · have hletter := Cells.getElem_of_read hcommand hj
      rw [Nat.zero_add] at hletter
      rw [hletter]
      exact hl.letters _ (List.getElem_mem hj)
    · rw [hspace _ (Nat.le_refl _) (by omega)]
      rfl
  have hskip : skipSpaces pbuf (2 ^ 7 - l.command.length) l.command.length =
      some (l.command.length + l.blanks) := by
    refine skipSpaces_eq hspace ?_ (by omega) (by omega)
    -- the first byte of the parameters, or of the ending
    by_cases hnil : l.parameters = []
    · rw [hnil, List.length_nil, Nat.add_zero] at hending
      rcases hl.ends with hline | hreturn | ⟨_, hnonempty⟩
      · rw [Cells.head_of_read hending hline]
        decide
      · rw [Cells.head_of_read hending hreturn]
        decide
      · exact absurd hnil hnonempty
    · obtain ⟨first, rest, hcons⟩ := List.exists_cons_of_ne_nil hnil
      have hfirst := hl.first
      rw [hcons] at hparameters hfirst
      rw [Cells.head_of_read hparameters rfl]
      exact fun heq => hfirst (by rw [heq]; rfl)
  have hend : parameterLoop pbuf l.bytes.length (l.command.length + l.blanks) l.bytes.length 0 =
      l.parameters.length := by
    refine parameterLoop_eq (fun j hj => ?_) (by omega) ?_ (by omega) (Nat.zero_le _)
    · rw [Cells.getElem_of_read hparameters hj]
      obtain ⟨hline, hreturn, _⟩ := hl.parameters _ (List.getElem_mem hj)
      exact ⟨hline, hreturn⟩
    · rcases hl.ends with hline | hreturn | ⟨hnil, _⟩
      · exact .inr (.inl (Cells.head_of_read hending hline))
      · exact .inr (.inr (Cells.head_of_read hending hreturn))
      · rw [hnil, List.length_nil] at hlength
        omega
  have hcopy : l.parameters.takeWhile (· ≠ 0) = l.parameters := by
    have htake : (l.parameters ++ []).takeWhile (· ≠ 0) = l.parameters ++ [].takeWhile (· ≠ 0) :=
      List.takeWhile_append_of_pos fun ch hch => decide_eq_true (hl.parameters ch hch).2.2
    rwa [List.append_nil, List.takeWhile_nil, List.append_nil] at htake
  unfold ftpParseCommand
  dsimp only
  rw [if_neg (by omega), hloop, if_neg (not_not.mpr (hspace _ (Nat.le_refl _) (by omega))), hskip, Option.map_some,
    hend, hcommand, hparameters, hcopy]

-- "CWD  sub", with a line end.
theorem parse_line_cwd :
    ftpParseCommand (Cells.write (fun _ => 255) 0 (text "CWD  sub\r\n")) 10 =
      some ⟨3, text "CWD", text "sub"⟩ := by
  let l : Line := ⟨text "CWD", 2, text "sub", text "\r\n"⟩
  have hvalid : l.Valid := ⟨by decide +kernel, by decide, by decide, by decide, by decide, by decide +kernel,
    by decide, by decide⟩
  have hholds : Cells.read (Cells.write (fun _ => 255) 0 l.bytes) 0 l.bytes.length = l.bytes := Cells.read_write
  exact parse_line hvalid hholds

end Ftp

end Carbon
