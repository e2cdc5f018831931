import Carbon.Library.CString
import Carbon.Library.SegmentPath

namespace Carbon

namespace Ftp

open CString (ascii text)
open SegmentPath

-- Strings are the bytes in front of their NUL.
def ftpCwdSize : Nat := 255 + 8
def ftpParamSize : Nat := 255 + 8

def pathUpALevel (path : List UInt8) : List UInt8 :=
  if ascii '/' ∈ path then
    let path := path.rdropWhile (· ≠ ascii '/')
    if path.length > 1 then path.dropLast else path
  else path

-- Writing behind the array a path lies in is undefined.
def inside (path : List UInt8) : Option (List UInt8) :=
  if path.length < ftpCwdSize then some path else none

-- strncat and strncpy with FTP_CWD_SIZE as their count.
def strncat (path src : List UInt8) : Option (List UInt8) := inside (path ++ src.take ftpCwdSize)

def strncpy (src : List UInt8) : Option (List UInt8) := inside (src.take ftpCwdSize)

-- "If the string is longer than 1 character and ends with '/', remove it". An
-- empty path has no last character to look at.
def trim (path : List UInt8) : Option (List UInt8) :=
  match path.getLast? with
  | none => none
  | some last =>
      let strl := path.length - 1
      some (if last = ascii '/' ∧ strl > 1 then path.dropLast else path)

-- path_build up to that removal.
def concatenated (currentPath ftpParam : List UInt8) : Option (List UInt8) :=
  if ftpParam = text "/" ∨ ftpParam.length = 0 then strncpy (text "/")
  else if ftpParam = text ".." then some (pathUpALevel currentPath)
  else if ftpParam.head? ≠ some (ascii '/') then
    match currentPath.getLast? with
    | none => none
    | some last =>
        (if last ≠ ascii '/' then strncat currentPath (text "/") else some currentPath).bind fun path =>
          strncat path ftpParam
  else strncpy ftpParam

def pathBuild (currentPath ftpParam : List UInt8) : Option (List UInt8 × Bool) :=
  ((concatenated currentPath ftpParam).bind trim).map fun path => (path, path.length < ftpCwdSize)

-- What a parameter does to a directory.
def cd (dir : List (List UInt8)) (param : List UInt8) : List (List UInt8) :=
  if param = text "/" ∨ param.length = 0 then []
  else if param = text ".." then dir.dropLast
  else if param.head? ≠ some (ascii '/') then dir ++ names (ascii '/') param
  else names (ascii '/') param

def path (dir : List (List UInt8)) : List UInt8 := render (ascii '/') dir

variable {dir : List (List UInt8)} {param : List UInt8}

theorem cd_names (h : Names (ascii '/') dir) (param : List UInt8) : Names (ascii '/') (cd dir param) := by
  unfold cd
  split
  · exact Names.nil
  split
  · exact h.dropLast
  split
  · exact h.append (names_names param)
  · exact names_names param

theorem join_length_pos (h : Names (ascii '/') dir) (hne : dir ≠ []) :
    2 ≤ (join (ascii '/') dir).length := by
  obtain ⟨name, rest, rfl⟩ := List.exists_cons_of_ne_nil hne
  have hname := List.length_pos_iff.mpr (h name (List.mem_cons_self ..)).1
  rw [join, List.flatMap_cons, List.length_append, List.length_cons]
  omega

-- A level up is the parent; the root is its own.
theorem pathUpALevel_path (h : Names (ascii '/') dir) : pathUpALevel (path dir) = path dir.dropLast := by
  unfold pathUpALevel path
  induction dir using List.reverseRecOn with
  | nil => rfl
  | append_singleton dir name _ =>
      have hname : Name (ascii '/') name := h name (by simp)
      rw [render_append_singleton, if_pos (by simp), rdropWhile_name hname, List.dropLast_concat]
      by_cases hdir : dir = []
      · subst hdir
        rfl
      · have hlong : (join (ascii '/') dir ++ [ascii '/']).length > 1 := by
          have hpos := join_length_pos (fun n hn => h n (List.mem_append_left _ hn)) hdir
          rw [List.length_append]
          omega
        simp only [hlong, if_true, List.dropLast_concat, render_of_ne_nil hdir]

theorem path_ne_nil (h : Names (ascii '/') dir) : path dir ≠ [] := by
  unfold path
  by_cases hdir : dir = []
  · simp [hdir]
  · rw [render_of_ne_nil hdir, ← List.length_pos_iff]
    have hlong := join_length_pos h hdir
    omega

theorem trim_path (h : Names (ascii '/') dir) : trim (path dir) = some (path dir) := by
  unfold trim path
  by_cases hdir : dir = []
  · subst hdir
    rfl
  · rw [render_of_ne_nil hdir]
    have hlast := getLast?_join h
    have hlong := join_length_pos h hdir
    cases hend : (join (ascii '/') dir).getLast? with
    | none => simp [List.getLast?_eq_none_iff.mp hend] at hlong
    | some last =>
        rw [hend] at hlast
        simp only [show ¬last = ascii '/' from fun heq => hlast (by rw [heq]), false_and, if_false]

theorem trim_separator (h : Names (ascii '/') dir) (hdir : dir ≠ []) :
    trim (join (ascii '/') dir ++ [ascii '/']) = some (path dir) := by
  have hlong := join_length_pos h hdir
  unfold trim path
  rw [List.getLast?_concat, List.dropLast_concat, render_of_ne_nil hdir, List.length_append,
    List.length_singleton]
  simp only [true_and]
  rw [if_pos (by omega)]

-- A text behind a separator, behind the path of a directory.
theorem trim_append (h : Names (ascii '/') dir) {str : List UInt8} (hproper : Proper (ascii '/') (ascii '/' :: str))
    (hne : str ≠ []) :
    trim (join (ascii '/') dir ++ ascii '/' :: str) = some (path (dir ++ names (ascii '/') str)) := by
  have hnames : Names (ascii '/') (dir ++ names (ascii '/') str) := h.append (names_names str)
  have hnonempty : dir ++ names (ascii '/') str ≠ [] := by
    intro hnil
    have hstr := (List.append_eq_nil_iff.mp hnil).2
    rcases cons_eq_join hproper hne with heq | heq
    · simp [hstr] at heq
    · simp [hstr] at heq
      exact hne heq
  rcases cons_eq_join hproper hne with heq | heq
  · rw [heq, ← join_append, ← render_of_ne_nil hnonempty]
    exact trim_path hnames
  · rw [heq, ← List.append_assoc, ← join_append]
    exact trim_separator hnames hnonempty

theorem trim_length {str trimmed : List UInt8} (h : trim str = some trimmed) : trimmed.length ≤ str.length := by
  unfold trim at h
  split at h
  · cases h
  · cases h
    split
    · rw [List.length_dropLast]
      omega
    · exact Nat.le_refl _

theorem inside_bind (front back : List UInt8) :
    (inside front).bind (fun p => inside (p ++ back)) = inside (front ++ back) := by
  unfold inside
  by_cases hfront : front.length < ftpCwdSize
  · rw [if_pos hfront, Option.bind_some]
  · have hlong : ¬(front ++ back).length < ftpCwdSize := by
      rw [List.length_append]
      omega
    rw [if_neg hfront, if_neg hlong, Option.bind_none]

-- The length of the text that path_build puts together before it removes a
-- separator at the end.
def builtLength (dir : List (List UInt8)) (param : List UInt8) : Nat :=
  if param = text ".." ∨ param.length = 0 ∨ param.head? = some (ascii '/') then param.length
  else (join (ascii '/') dir).length + 1 + param.length

-- A text that fits is trimmed to a path, which then fits too.
theorem trim_inside {str : List UInt8} {other : List (List UInt8)} (htrim : trim str = some (path other)) :
    ((inside str).bind trim).map (fun path => (path, decide (path.length < ftpCwdSize))) =
      if str.length < ftpCwdSize then some (path other, true) else none := by
  have hle := trim_length htrim
  unfold inside
  split
  · rw [Option.bind_some, htrim, Option.map_some, decide_eq_true (by omega)]
  · rfl

theorem strncat_path (h : Names (ascii '/') dir) (hparam : param.length < ftpParamSize) {last : UInt8}
    (hlast : (path dir).getLast? = some last) :
    ((if last ≠ ascii '/' then strncat (path dir) (text "/") else some (path dir)).bind fun p => strncat p param) =
      inside (join (ascii '/') dir ++ ascii '/' :: param) := by
  have htake : param.take ftpCwdSize = param := List.take_of_length_le (Nat.le_of_lt hparam)
  have hslash : (text "/").take ftpCwdSize = [ascii '/'] := rfl
  unfold strncat
  rw [htake, hslash]
  by_cases hdir : dir = []
  · subst hdir
    cases hlast
    rfl
  · have hend : last ≠ ascii '/' := by
      rintro rfl
      rw [path, render_of_ne_nil hdir] at hlast
      exact getLast?_join h hlast
    rw [if_pos hend, inside_bind, path, render_of_ne_nil hdir, List.append_assoc]
    rfl

theorem path_dropLast_length (dir : List (List UInt8)) : (path dir.dropLast).length ≤ (path dir).length := by
  induction dir using List.reverseRecOn with
  | nil => exact Nat.le_refl _
  | append_singleton dir name _ =>
      rw [List.dropLast_concat, path, path, render_append_singleton]
      unfold render
      split
      · rw [List.length_append, List.length_cons, List.length_cons, List.length_nil]
        omega
      · rw [List.length_append]
        exact Nat.le_add_right ..

-- What is concatenated, and what it becomes.
theorem concatenated_path (h : Names (ascii '/') dir) (hproper : Proper (ascii '/') param)
    (hparam : param.length < ftpParamSize) (hfits : (path dir).length < ftpCwdSize) :
    ∃ str, concatenated (path dir) param = inside str ∧ trim str = some (path (cd dir param)) ∧
      (str.length < ftpCwdSize ↔ builtLength dir param < ftpCwdSize) := by
  have hshort : ∀ n, n < 3 → n < ftpCwdSize := fun n hn => Nat.lt_trans hn (by decide)
  have htake : param.take ftpCwdSize = param := List.take_of_length_le (Nat.le_of_lt hparam)
  unfold concatenated cd
  by_cases hroot : param = text "/" ∨ param.length = 0
  · rw [if_pos hroot, if_pos hroot]
    refine ⟨text "/", rfl, rfl, ?_⟩
    rcases hroot with rfl | hzero
    · exact Iff.rfl
    · rw [builtLength, if_pos (.inr (.inl hzero)), hzero]
      exact iff_of_true (hshort 1 (by decide)) (hshort 0 (by decide))
  rw [if_neg hroot, if_neg hroot]
  by_cases hparent : param = text ".."
  · rw [if_pos hparent, if_pos hparent, builtLength, if_pos (.inl hparent), pathUpALevel_path h]
    have hle := path_dropLast_length dir
    refine ⟨path dir.dropLast, ?_, trim_path h.dropLast, ?_⟩
    · rw [inside, if_pos (by omega)]
    · subst hparent
      exact iff_of_true (by omega) (hshort 2 (by decide))
  rw [if_neg hparent, if_neg hparent]
  have hne : param ≠ [] := fun hnil => hroot (.inr (by rw [hnil]; rfl))
  by_cases hrelative : param.head? ≠ some (ascii '/')
  · -- a text without a slash in front goes behind the directory
    have hbehind : Proper (ascii '/') (ascii '/' :: param) := by
      obtain ⟨first, rest, rfl⟩ := List.exists_cons_of_ne_nil hne
      exact List.isChain_cons_cons.mpr ⟨fun hslash => hrelative (by simp [hslash.2]), hproper⟩
    rw [if_pos hrelative, if_pos hrelative, builtLength,
      if_neg (by rintro (heq | hzero | hhead)
                 exacts [hparent heq, hroot (.inr hzero), hrelative hhead])]
    refine ⟨join (ascii '/') dir ++ ascii '/' :: param, ?_, trim_append h hbehind hne, ?_⟩
    · cases hlast : (path dir).getLast? with
      | none => exact absurd (List.getLast?_eq_none_iff.mp hlast) (path_ne_nil h)
      | some last => exact strncat_path h hparam hlast
    · rw [List.length_append, List.length_cons, Nat.add_assoc, Nat.add_comm 1]
  · -- one with a slash in front is the whole path
    have hhead : param.head? = some (ascii '/') := not_not.mp hrelative
    rw [if_neg hrelative, if_neg hrelative, builtLength, if_pos (.inr (.inr hhead))]
    refine ⟨param, by rw [strncpy, htake], ?_, Iff.rfl⟩
    obtain ⟨first, rest, rfl⟩ := List.exists_cons_of_ne_nil hne
    cases hhead
    have hrest : rest ≠ [] := by
      rintro rfl
      exact hroot (.inl rfl)
    rw [names_cons]
    exact trim_append Names.nil hproper hrest

-- path_build is cd on the paths of directories, for parameters without an empty
-- name. Its result never has to be checked: a text too long has already left the array.
theorem pathBuild_path (h : Names (ascii '/') dir) (hproper : Proper (ascii '/') param)
    (hparam : param.length < ftpParamSize) (hfits : (path dir).length < ftpCwdSize) :
    pathBuild (path dir) param =
      if builtLength dir param < ftpCwdSize then some (path (cd dir param), true) else none := by
  obtain ⟨str, hstr, htrim, hlength⟩ := concatenated_path h hproper hparam hfits
  unfold pathBuild
  rw [hstr, trim_inside htrim]
  simp only [hlength]

end Ftp

end Carbon
