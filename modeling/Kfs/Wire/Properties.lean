import Kfs.Base
import Kfs.Lib.Decimal
import Mathlib.Data.List.DropRight

/-!
# Headers

A message between the processes is a command line and lines `key: value`, and ends with an empty line. The receiver
reads it into a table of properties.

* `Header`, `Header.text`: what a sender writes;
* `Properties`, `loadProperties`, `removeLTSpaces`, `getValue`: what a receiver reads, `commandName` the command;
* `Header.Sound`, **`Header.Sound.parse`**: every field of a header whose values have no newline is found under its
  name, without the blanks around it.
-/

namespace Kfs

open Lib

def CRLF : Str := ['\r', '\n']

/-! ## Writing -/

/-- A line: the key, with its colon and what stands between the two, and the value. -/
structure Field where
  key : Str
  value : Str
deriving DecidableEq

structure Header where
  command : Str
  fields : List Field
deriving DecidableEq

def Field.text (f : Field) : Str := f.key ++ f.value ++ CRLF

def Header.text (h : Header) : Str := h.command ++ CRLF ++ h.fields.flatMap Field.text ++ CRLF

/-- The length of what is the same in all headers of a kind. -/
def Header.frame (h : Header) : ℕ :=
  h.command.length + ((h.fields.map Field.key).map List.length).sum + 2 * (h.fields.map Field.key).length + 4

theorem Header.length_text (h : Header) : h.text.length = h.frame + (h.fields.map fun f => f.value.length).sum := by
  obtain ⟨command, fields⟩ := h
  have hlines : (fields.flatMap Field.text).length = ((fields.map Field.key).map List.length).sum + 2 * fields.length +
      (fields.map fun f => f.value.length).sum := by
    induction fields with
    | nil => rfl
    | cons f fields ih =>
      simp only [List.flatMap_cons, List.length_append, ih, Field.text, CRLF, List.map_cons, List.sum_cons,
        List.length_cons, List.length_nil]
      omega
  simp only [text, frame, List.length_append, hlines, CRLF, List.length_map, List.length_cons, List.length_nil]
  omega

def KFS_VERSION_STR : Str := "KFS/1.0".toList

/-! ## Reading -/

def isBlank (c : Char) : Bool := c ∈ [' ', '\t', '\r', '\n']

def removeLTSpaces (s : Str) : Str := (s.dropWhile isBlank).rdropWhile isBlank

abbrev Properties := Str → Option Str

/-- Comments and lines without the delimiter are ignored. -/
def loadLine (delimiter : Char) (prop : Properties) (line : Str) : Properties :=
  if line.head? = some '#' ∨ delimiter ∉ line then prop
  else Function.update prop (removeLTSpaces (line.takeWhile (· ≠ delimiter)))
    (some (removeLTSpaces (line.dropWhile (· ≠ delimiter)).tail))

/-- `getline` until the end of the text; of two lines with the same key the later one counts. -/
def loadProperties (delimiter : Char) (s : Str) : Properties :=
  (s.splitOn '\n').foldl (loadLine delimiter) fun _ => none

/-- Out of range the number is the nearest one. -/
def atoll (s : Str) : Int64 := Int64.ofIntClamp (strtoll s).1

def atoi (s : Str) : Int32 := (atoll s).toInt32

/-- The C string in a buffer. -/
def cString (s : Str) : Str := s.takeWhile (· ≠ '\x00')

namespace Properties

variable (prop : Properties) (key : Str)

def getLong (d : Int64) : Int64 := ((prop key).map atoll).getD d

def getInt (d : Int32) : Int32 := ((prop key).map atoi).getD d

/-- The value as a C string. -/
def getString (d : Str) : Str := ((prop key).map cString).getD d

end Properties

/-- The first word of a message, and what follows it. -/
def commandName (s : Str) : Str × Str :=
  let s := (cString s).dropWhile isSpace
  ((s.takeWhile fun c => !isSpace c).takeWhile fun c => c ∉ [' ', '\r', '\n'], s.dropWhile fun c => !isSpace c)

/-- What `ParseCommand` looks at: the command and the properties of a message. -/
def parseHeader (cmdBuf : Str) : Str × Properties :=
  ((commandName cmdBuf).1, loadProperties ':' (commandName cmdBuf).2)

/-! ## Numbers -/

@[simp] theorem atoll_printInt (n : Int64) : atoll (printInt n.toInt) = n := by
  rw [atoll, strtoll_printInt, ← Int64.toInt_inj, Int64.toInt_ofIntClamp]
  · exact n.le_toInt
  · have := n.toInt_lt
    have hmax : Int64.maxValue.toInt = 2 ^ 63 - 1 := rfl
    omega

@[simp] theorem atoi_printInt (n : Int32) : atoi (printInt n.toInt) = n := by
  rw [atoi, ← Int32.toInt_toInt64, atoll_printInt, Int32.toInt32_toInt64]

/-- A length is read back when it is one of an `int`. -/
theorem atoi_printInt_nat {n : ℕ} (h : n < 2 ^ 31) : atoi (printInt n) = Int32.ofNat n := by
  have hn : (n : ℤ) = (Int32.ofNat n).toInt := (Int32.toInt_ofNat_of_lt h).symm
  rw [hn, atoi_printInt]

/-! ## Blanks -/

theorem removeLTSpaces_cons {c : Char} (hc : isBlank c = true) (s : Str) :
    removeLTSpaces (c :: s) = removeLTSpaces s := by
  rw [removeLTSpaces, List.dropWhile_cons_of_pos hc, removeLTSpaces]

theorem removeLTSpaces_concat {c : Char} (hc : isBlank c = true) (s : Str) :
    removeLTSpaces (s ++ [c]) = removeLTSpaces s := by
  unfold removeLTSpaces
  rw [List.dropWhile_append]
  split_ifs with h
  · rw [List.isEmpty_iff.mp h, List.dropWhile_cons_of_pos hc]
    rfl
  · exact List.rdropWhile_concat_pos _ _ _ hc

theorem dropWhile_isBlank_eq_self_iff {s : Str} :
    s.dropWhile isBlank = s ↔ ∀ c ∈ s.head?, isBlank c = false := by
  cases s with
  | nil => simp
  | cons a s => simp [List.dropWhile_eq_self_iff]

theorem rdropWhile_isBlank_eq_self_iff {s : Str} :
    s.rdropWhile isBlank = s ↔ ∀ c ∈ s.getLast?, isBlank c = false := by
  rw [List.rdropWhile_eq_self_iff]
  constructor
  · intro h c hc
    obtain ⟨hne, rfl⟩ := List.mem_getLast?_eq_getLast hc
    simpa using h hne
  · intro h hne
    simpa using h _ (List.getLast?_eq_some_getLast hne)

/-- Exactly the texts that begin and end without a blank are kept. -/
theorem removeLTSpaces_eq_self_iff {s : Str} :
    removeLTSpaces s = s ↔ (∀ c ∈ s.head?, isBlank c = false) ∧ ∀ c ∈ s.getLast?, isBlank c = false := by
  constructor
  · intro h
    have hd : s.dropWhile isBlank = s := by
      refine List.IsSuffix.eq_of_length_le (List.dropWhile_suffix _) ?_
      have := (List.rdropWhile_prefix isBlank (l := s.dropWhile isBlank)).length_le
      rwa [← removeLTSpaces, h] at this
    rw [removeLTSpaces, hd] at h
    exact ⟨dropWhile_isBlank_eq_self_iff.mp hd, rdropWhile_isBlank_eq_self_iff.mp h⟩
  · rintro ⟨h₁, h₂⟩
    rw [removeLTSpaces, dropWhile_isBlank_eq_self_iff.mpr h₁, rdropWhile_isBlank_eq_self_iff.mpr h₂]

theorem removeLTSpaces_idem (s : Str) : removeLTSpaces (removeLTSpaces s) = removeLTSpaces s := by
  rw [removeLTSpaces_eq_self_iff]
  constructor
  · intro c hc
    have hd := dropWhile_isBlank_eq_self_iff.mp (List.dropWhile_idempotent isBlank s)
    obtain ⟨t, ht⟩ := List.rdropWhile_prefix isBlank (l := s.dropWhile isBlank)
    refine hd c ?_
    rw [Option.mem_def, removeLTSpaces] at hc
    rw [Option.mem_def, ← ht, List.head?_append, hc]
    rfl
  · exact rdropWhile_isBlank_eq_self_iff.mp (List.rdropWhile_idempotent isBlank _)

theorem removeLTSpaces_subset (s : Str) : removeLTSpaces s ⊆ s := fun _ hc =>
  (List.dropWhile_suffix _).subset ((List.rdropWhile_prefix _ _).subset hc)

theorem removeLTSpaces_of_forall {s : Str} (h : ∀ c ∈ s, isBlank c = false) : removeLTSpaces s = s :=
  removeLTSpaces_eq_self_iff.mpr
    ⟨fun c hc => h c (List.mem_of_mem_head? hc), fun c hc => h c (List.mem_of_mem_getLast? hc)⟩

theorem isBlank_of_isDigit {c : Char} (hd : c.isDigit = true) : isBlank c = false := by
  have hblank : ∀ b ∈ [' ', '\t', '\r', '\n'], Char.isDigit b = false := by simp
  refine decide_eq_false fun h => ?_
  rw [hblank c h] at hd
  exact Bool.false_ne_true hd

@[simp] theorem removeLTSpaces_printInt (n : ℤ) : removeLTSpaces (' ' :: printInt n) = printInt n := by
  rw [removeLTSpaces_cons rfl, removeLTSpaces_of_forall]
  intro c hc
  rcases printInt_mem hc with rfl | hd
  · rfl
  · exact isBlank_of_isDigit hd

namespace Properties

variable {prop : Properties} {key : Str}

theorem getLong_eq {n : Int64} (h : prop key = some (removeLTSpaces (' ' :: printInt n.toInt))) (d : Int64) :
    prop.getLong key d = n := by
  rw [getLong, h, removeLTSpaces_printInt]
  exact atoll_printInt n

theorem getInt_eq {n : Int32} (h : prop key = some (removeLTSpaces (' ' :: printInt n.toInt))) (d : Int32) :
    prop.getInt key d = n := by
  rw [getInt, h, removeLTSpaces_printInt]
  exact atoi_printInt n

theorem getInt_eq_ofNat {n : ℕ} (h : prop key = some (removeLTSpaces (' ' :: printInt n))) (hn : n < 2 ^ 31)
    (d : Int32) : prop.getInt key d = Int32.ofNat n := by
  rw [getInt, h, removeLTSpaces_printInt]
  exact atoi_printInt_nat hn

end Properties

theorem cString_of_not_mem {s : Str} (h : '\x00' ∉ s) : cString s = s := by
  rw [cString, List.takeWhile_eq_self_iff]
  intro c hc
  exact decide_eq_true fun he => h (he ▸ hc)

/-! ## Reading a header back -/

/-- The name under which the value of a line is found. -/
def Field.name (f : Field) : Str := removeLTSpaces (f.key.takeWhile (· ≠ ':'))

def Field.read (f : Field) : Str := removeLTSpaces ((f.key.dropWhile (· ≠ ':')).tail ++ f.value)

/-- A line that is read as one field. -/
structure Field.Sound (f : Field) : Prop where
  colon : ':' ∈ f.key
  comment : f.key.head? ≠ some '#'
  key_line : '\n' ∉ f.key
  value_line : '\n' ∉ f.value

def Header.props (h : Header) : Properties :=
  h.fields.foldl (fun prop f => Function.update prop f.name (some f.read)) fun _ => none

namespace Field

variable {f : Field}

theorem Sound.takeWhile (hf : f.Sound) (s : Str) : (f.key ++ s).takeWhile (· ≠ ':') = f.key.takeWhile (· ≠ ':') := by
  have hne : (f.key.takeWhile (· ≠ ':')).length ≠ f.key.length := by
    intro h
    have hall := (List.takeWhile_prefix (· ≠ ':') (l := f.key)).eq_of_length h
    simpa using List.takeWhile_eq_self_iff.mp hall ':' hf.colon
  rw [List.takeWhile_append, if_neg hne]

theorem Sound.dropWhile (hf : f.Sound) (s : Str) :
    (f.key ++ s).dropWhile (· ≠ ':') = f.key.dropWhile (· ≠ ':') ++ s := by
  rw [List.dropWhile_append, if_neg]
  intro h
  simpa using List.dropWhile_eq_nil_iff.mp (List.isEmpty_iff.mp h) ':' hf.colon

/-- What stands behind the colon of the key is not empty, with the colon. -/
theorem Sound.dropWhile_ne_nil (hf : f.Sound) : f.key.dropWhile (· ≠ ':') ≠ [] := by
  intro h
  simpa using List.dropWhile_eq_nil_iff.mp h ':' hf.colon

theorem Sound.loadLine (hf : f.Sound) (prop : Properties) :
    loadLine ':' prop (f.key ++ f.value ++ ['\r']) = Function.update prop f.name (some f.read) := by
  have hkey : f.key ≠ [] := List.ne_nil_of_mem hf.colon
  have hread : removeLTSpaces ((f.key ++ f.value ++ ['\r']).dropWhile (· ≠ ':')).tail = f.read := by
    rw [List.append_assoc, hf.dropWhile, List.tail_append_of_ne_nil hf.dropWhile_ne_nil, ← List.append_assoc,
      removeLTSpaces_concat rfl, Field.read]
  have hload : ¬((f.key ++ f.value ++ ['\r']).head? = some '#' ∨ ':' ∉ f.key ++ f.value ++ ['\r']) := by
    rw [List.append_assoc, List.head?_append_of_ne_nil _ hkey]
    simp [hf.comment, hf.colon]
  rw [Kfs.loadLine, if_neg hload, hread, List.append_assoc, hf.takeWhile, Field.name]

/-- The lines of sound fields are loaded one by one. -/
theorem foldl_loadLine {fields : List Field} (hf : ∀ f ∈ fields, f.Sound) (s : Str) (prop : Properties) :
    ((fields.flatMap text ++ s).splitOn '\n').foldl (Kfs.loadLine ':') prop =
      (s.splitOn '\n').foldl (Kfs.loadLine ':')
        (fields.foldl (fun prop f => Function.update prop f.name (some f.read)) prop) := by
  induction fields generalizing prop with
  | nil => rfl
  | cons f fields ih =>
    have hline : (f :: fields).flatMap text ++ s =
        (f.key ++ f.value ++ ['\r']) ++ '\n' :: (fields.flatMap text ++ s) := by
      simp [text, CRLF]
    have hf₀ := hf f List.mem_cons_self
    have hnot : '\n' ∉ f.key ++ f.value ++ ['\r'] := by
      simp [hf₀.key_line, hf₀.value_line]
    rw [hline, List.splitOn_append_cons_self, List.splitOn_eq_singleton hnot, List.singleton_append, List.foldl_cons,
      hf₀.loadLine, ih (fun g hg => hf g (List.mem_cons_of_mem _ hg)), List.foldl_cons]

end Field

theorem loadProperties_text {fields : List Field} (hf : ∀ f ∈ fields, f.Sound) {pre : Str} (hcolon : ':' ∉ pre)
    (hline : '\n' ∉ pre) :
    loadProperties ':' (pre ++ CRLF ++ fields.flatMap Field.text ++ CRLF) = Header.props ⟨pre, fields⟩ := by
  have hsplit : pre ++ CRLF ++ fields.flatMap Field.text ++ CRLF =
      (pre ++ ['\r']) ++ '\n' :: (fields.flatMap Field.text ++ CRLF) := by simp [CRLF]
  have hline' : '\n' ∉ pre ++ ['\r'] := by simpa using hline
  have hcolon' : ':' ∉ pre ++ ['\r'] := by simpa using hcolon
  have hload (prop : Properties) : loadLine ':' prop (pre ++ ['\r']) = prop := by
    rw [loadLine, if_pos (Or.inr hcolon')]
  have hend : CRLF.splitOn '\n' = [['\r'], []] := by decide
  rw [loadProperties, hsplit, List.splitOn_append_cons_self, List.splitOn_eq_singleton hline', List.singleton_append,
    List.foldl_cons, Field.foldl_loadLine hf, hload, hend]
  rfl

/-- The value of a property is a part of a line, without the blanks around it. -/
theorem loadProperties_value {delimiter : Char} {s key v : Str} (h : loadProperties delimiter s key = some v) :
    ∃ line ∈ s.splitOn '\n', ∃ u ⊆ line, v = removeLTSpaces u := by
  have hfold : ∀ (lines : List Str) (prop : Properties), (∀ l ∈ lines, l ∈ s.splitOn '\n') →
      (∀ k v, prop k = some v → ∃ line ∈ s.splitOn '\n', ∃ u ⊆ line, v = removeLTSpaces u) →
        ∀ k v, lines.foldl (loadLine delimiter) prop k = some v →
          ∃ line ∈ s.splitOn '\n', ∃ u ⊆ line, v = removeLTSpaces u := by
    intro lines
    induction lines with
    | nil => exact fun _ _ hprop => hprop
    | cons l lines ih =>
      intro prop hlines hprop
      refine ih _ (fun m hm => hlines m (List.mem_cons_of_mem _ hm)) fun k v hv => ?_
      unfold loadLine at hv
      split_ifs at hv
      · exact hprop k v hv
      · rw [Function.update_apply] at hv
        split_ifs at hv
        · exact ⟨l, hlines l List.mem_cons_self, _,
            fun c hc => (List.dropWhile_suffix _).subset (List.mem_of_mem_tail hc), (Option.some.inj hv).symm⟩
        · exact hprop k v hv
  exact hfold _ _ (fun l hl => hl) (fun k v hv => by cases hv) key v h

/-- No value of a property has a newline in it. -/
theorem loadProperties_line {delimiter : Char} {s key v : Str} (h : loadProperties delimiter s key = some v) :
    '\n' ∉ v := by
  obtain ⟨line, hline, u, hu, rfl⟩ := loadProperties_value h
  exact fun hmem => not_mem_of_mem_splitOn hline (hu (removeLTSpaces_subset u hmem))

/-- A line of a text is a part of it. -/
theorem subset_of_mem_splitOn {s line : Str} (h : line ∈ s.splitOn '\n') : line ⊆ s := by
  have hjoin : ∀ lines : List Str, line ∈ lines → line ⊆ joinSep '\n' lines := by
    intro lines
    induction lines with
    | nil => exact fun h => absurd h List.not_mem_nil
    | cons l lines ih =>
      intro h c hc
      rcases lines with - | ⟨m, lines⟩
      · rw [List.mem_singleton.mp h] at hc
        simpa [joinSep] using hc
      · have hsplit : joinSep '\n' (l :: m :: lines) = l ++ '\n' :: joinSep '\n' (m :: lines) := by simp [joinSep]
        rw [hsplit]
        rcases List.mem_cons.mp h with rfl | h
        · exact List.mem_append_left _ hc
        · exact List.mem_append_right _ (List.mem_cons_of_mem _ (ih h hc))
  have hsub := hjoin _ h
  rwa [joinSep_splitOn] at hsub

/-- A command word in front of a blank is read alone. -/
theorem commandName_word {w s : Str} {b : Char} (hw : ∀ c ∈ w, isSpace c = false) (hne : w ≠ [])
    (hb : isSpace b = true) (h₀ : '\x00' ∉ w) : commandName (w ++ b :: s) = (w, b :: cString s) := by
  obtain ⟨a, t, rfl⟩ := List.exists_cons_of_ne_nil hne
  have hb₀ : b ≠ '\x00' := by
    rintro rfl
    exact absurd hb (by decide)
  have hc : cString (a :: t ++ b :: s) = a :: t ++ b :: cString s := by
    have hw₀ : ∀ c ∈ a :: t, decide (c ≠ '\x00') = true := fun c hc => decide_eq_true fun he => h₀ (he ▸ hc)
    rw [cString, List.takeWhile_append_of_pos hw₀, List.takeWhile_cons_of_pos (by simp [hb₀]), cString]
  have ha : isSpace a = false := hw a List.mem_cons_self
  have hskip : (a :: t ++ b :: cString s).dropWhile isSpace = a :: t ++ b :: cString s :=
    List.dropWhile_cons_of_neg (by simp [ha])
  have htake : (a :: t ++ b :: cString s).takeWhile (fun c => !isSpace c) = a :: t := by
    rw [List.takeWhile_append_of_pos fun c hc => by rw [hw c hc]; rfl, List.takeWhile_cons_of_neg (by simp [hb]),
      List.append_nil]
  have hdrop : (a :: t ++ b :: cString s).dropWhile (fun c => !isSpace c) = b :: cString s := by
    rw [List.dropWhile_append_of_pos fun c hc => by rw [hw c hc]; rfl, List.dropWhile_cons_of_neg (by simp [hb])]
  have htrim : (a :: t).takeWhile (fun c => c ∉ [' ', '\r', '\n']) = a :: t := by
    rw [List.takeWhile_eq_self_iff]
    intro c hc
    refine decide_eq_true fun h => ?_
    have hspace : ∀ d ∈ [' ', '\r', '\n'], isSpace d = true := by simp [isSpace]
    exact Bool.false_ne_true ((hw c hc).symm.trans (hspace c h))
  simp only [commandName, hc, hskip, htake, hdrop, htrim]

theorem commandName_append {w s : Str} {b : Char} (hw : ∀ c ∈ w, isSpace c = false) (hne : w ≠ [])
    (hb : isSpace b = true) (h₀ : '\x00' ∉ w ++ b :: s) : commandName (w ++ b :: s) = (w, b :: s) := by
  have hs : '\x00' ∉ s := fun h => h₀ (List.mem_append_right w (List.mem_cons_of_mem b h))
  rw [commandName_word hw hne hb (fun h => h₀ (List.mem_append_left _ h)), cString_of_not_mem hs]

/-- A value that stays in its line. -/
def Clean (s : Str) : Prop := '\n' ∉ s ∧ '\x00' ∉ s

theorem clean_printInt (n : ℤ) : Clean (printInt n) :=
  ⟨not_mem_printInt n rfl (by decide), not_mem_printInt n rfl (by decide)⟩

theorem clean_printInt_nat (n : ℕ) : Clean (printInt n) := clean_printInt n

/-- A command word, perhaps with a blank, and keys with a colon, without ends of lines. -/
def regularKeys (command : Str) (keys : List Str) (w : Str) : Bool :=
  (command = w ∨ command = w ++ [' ']) && w ≠ [] && w.all (fun c => !isSpace c && c ≠ '\x00') &&
    keys.all fun key => ':' ∈ key && key.head? ≠ some '#' && key.all fun c => c ∉ ['\r', '\n', '\x00']

/-- The fixed parts of a header are regular. -/
def Header.regular (h : Header) (w : Str) : Bool := regularKeys h.command (h.fields.map Field.key) w

/-- A header that is read as it has been written. -/
structure Header.Sound (h : Header) (w : Str) : Prop where
  regular : h.regular w = true
  values : h.fields.Forall fun f => Clean f.value

namespace Header.Sound

variable {h : Header} {w : Str}

/-- The fixed parts can be looked at in another header that has them. -/
theorem of_same (h₀ : Header) (hr : h₀.regular w = true) (hcommand : h.command = h₀.command)
    (hkeys : h.fields.map Field.key = h₀.fields.map Field.key) (hv : h.fields.Forall fun f => Clean f.value) :
    h.Sound w where
  regular := by rwa [Header.regular, hcommand, hkeys]
  values := hv

theorem value (hs : h.Sound w) : ∀ f ∈ h.fields, Clean f.value := List.forall_iff_forall_mem.mp hs.values

theorem command (hs : h.Sound w) : ∃ pre, (∀ c ∈ pre, c = ' ') ∧ h.command = w ++ pre := by
  have hr := hs.regular
  simp only [Header.regular, regularKeys, Bool.and_eq_true, decide_eq_true_eq] at hr
  rcases hr.1.1.1 with hc | hc
  · exact ⟨[], by simp, by rw [hc, List.append_nil]⟩
  · exact ⟨[' '], by simp, hc⟩

theorem word_ne (hs : h.Sound w) : w ≠ [] := by
  have hr := hs.regular
  simp only [Header.regular, regularKeys, Bool.and_eq_true, decide_eq_true_eq] at hr
  exact hr.1.1.2

theorem word (hs : h.Sound w) {c : Char} (hc : c ∈ w) : isSpace c = false ∧ c ≠ '\x00' := by
  have hr := hs.regular
  simp only [Header.regular, regularKeys, Bool.and_eq_true, List.all_eq_true] at hr
  simpa using hr.1.2 c hc

theorem key (hs : h.Sound w) {f : Field} (hf : f ∈ h.fields) :
    (':' ∈ f.key ∧ f.key.head? ≠ some '#') ∧ ∀ c ∈ f.key, c ∉ ['\r', '\n', '\x00'] := by
  have hr := hs.regular
  simp only [Header.regular, regularKeys, Bool.and_eq_true, List.all_eq_true, decide_eq_true_eq] at hr
  exact hr.2 f.key (List.mem_map_of_mem hf)

theorem field (hs : h.Sound w) {f : Field} (hf : f ∈ h.fields) : f.Sound where
  colon := (hs.key hf).1.1
  comment := (hs.key hf).1.2
  key_line := fun h => (hs.key hf).2 _ h (by decide)
  value_line := (hs.value f hf).1

theorem nul (hs : h.Sound w) : '\x00' ∉ h.text := by
  obtain ⟨pre, hpre, hcommand⟩ := hs.command
  simp only [Header.text, Field.text, hcommand, List.mem_append, List.mem_flatMap, not_or, not_exists, not_and]
  refine ⟨⟨⟨⟨fun h => (hs.word h).2 rfl, fun h => absurd (hpre _ h) (by decide)⟩, by decide⟩, fun f hf => ?_⟩,
    by decide⟩
  exact ⟨⟨fun h => (hs.key hf).2 _ h (by decide), (hs.value f hf).2⟩, by decide⟩

/-- **What a receiver reads in a header**: its command, and the fields. -/
theorem parse (hs : h.Sound w) : parseHeader h.text = (w, h.props) := by
  obtain ⟨pre, hpre, hcommand⟩ := hs.command
  have htext : h.text = w ++ (pre ++ CRLF ++ h.fields.flatMap Field.text ++ CRLF) := by
    simp [Header.text, hcommand]
  obtain ⟨b, t, hb, ht⟩ :
      ∃ b t, isSpace b = true ∧ pre ++ CRLF ++ h.fields.flatMap Field.text ++ CRLF = b :: t := by
    cases pre with
    | nil => exact ⟨'\r', _, rfl, rfl⟩
    | cons c pre => exact ⟨c, _, by rw [hpre c List.mem_cons_self]; rfl, rfl⟩
  have hnul := hs.nul
  rw [htext, ht] at hnul
  rw [parseHeader, htext, ht, commandName_append (fun c hc => (hs.word hc).1) hs.word_ne hb hnul, ← ht,
    loadProperties_text (fun f hf => hs.field hf) (fun h => absurd (hpre _ h) (by decide))
      fun h => absurd (hpre _ h) (by decide)]
  rfl

/-- A receiver that reads the first line as one of the others passes over it. -/
theorem load (hs : h.Sound w) (hw : ':' ∉ w) : loadProperties ':' h.text = h.props := by
  obtain ⟨pre, hpre, hcommand⟩ := hs.command
  have hcolon : ':' ∉ h.command := by
    rw [hcommand, List.mem_append]
    exact not_or.2 ⟨hw, fun h => absurd (hpre _ h) (by decide)⟩
  have hline : '\n' ∉ h.command := by
    rw [hcommand, List.mem_append]
    exact not_or.2 ⟨fun h => absurd (hs.word h).1 (by decide), fun h => absurd (hpre _ h) (by decide)⟩
  exact loadProperties_text (fun f hf => hs.field hf) hcolon hline

end Header.Sound

/-- The command is read whatever the values are. -/
theorem Header.parseHeader_fst {h : Header} {w : Str} (hr : h.regular w = true) : (parseHeader h.text).1 = w := by
  simp only [Header.regular, regularKeys, Bool.and_eq_true, List.all_eq_true, decide_eq_true_eq] at hr
  obtain ⟨⟨⟨hcommand, hne⟩, hword⟩, -⟩ := hr
  have hspace : ∀ c ∈ w, isSpace c = false := fun c hc => by simpa using (hword c hc).1
  have hnul : '\x00' ∉ w := fun h => by simpa using (hword _ h).2
  obtain ⟨s, hs⟩ : ∃ s, h.text = h.command ++ '\r' :: s :=
    ⟨'\n' :: (h.fields.flatMap Field.text ++ CRLF), by simp [Header.text, CRLF]⟩
  rcases hcommand with hc | hc
  · rw [parseHeader, hs, hc, commandName_word hspace hne rfl hnul]
  · rw [parseHeader, hs, hc, List.append_assoc, List.singleton_append, commandName_word hspace hne rfl hnul]

end Kfs
