import Kfs.Wire.Requests

/-!
# Lists of servers in a header

A write goes along the servers of its chunk: each server finds itself in the list that the header has, and forwards to
the next one. In the list of a prepare and of a sync every server is followed by its write-id.

* `printEntries`: a list as the senders write it, without the blanks at its ends;
* `readEntry`, `needToForwardWrite`: a server, reading the list;
* **`needToForwardWrite_spec`**: it finds its place and its write-id, and the server behind it;
* `removeLTSpaces_printEntries`, `readEntries_printEntries`: a list comes through a header and is split again.
-/

namespace Kfs.Forward

open Lib

/-! ## The list -/

/-- A server, and its write-id where the list has one. -/
abbrev Entry := Wire.ServerLocation × Option Int64

def Entry.text : Entry → Str
  | (loc, none) => loc.ToString
  | (loc, some id) => loc.ToString ++ (" ".toList ++ printInt id.toInt)

/-- The entries behind the first one. -/
def printRest (es : List Entry) : Str := es.flatMap fun e => " ".toList ++ Entry.text e

def printEntries : List Entry → Str
  | [] => []
  | e :: es => Entry.text e ++ printRest es

/-- `operator >>` for a `std::string` -/
def extractWord (s : Str) : Option (Str × Str) :=
  let s := s.dropWhile isSpace
  if s = [] then none else some (s.takeWhile fun c => !isSpace c, s.dropWhile fun c => !isSpace c)

/-- `operator >>` for an `int` -/
def extractInt (s : Str) : Option (Int32 × Str) :=
  let (v, rest) := strtoll s
  if rest = s ∨ v < -2 ^ 31 ∨ 2 ^ 31 ≤ v then none else some (Int32.ofInt v, rest)

def readEntry (isWriteIdPresent : Bool) (ist : Str) : Option (Entry × Str) := do
  let (hostname, ist) ← extractWord ist
  let (port, ist) ← extractInt ist
  if isWriteIdPresent then
    let (id, ist) ← extract ist
    some ((⟨hostname, port⟩, some id), ist)
  else some ((⟨hostname, port⟩, none), ist)

/-! ## Where to forward to -/

/-- What `needToForwardWrite` gives back; what it leaves undefined is `none`. -/
structure Decision where
  needToForward : Bool
  myPos : Option ℕ
  peerLoc : Wire.ServerLocation
  writeId : Option Int64
deriving DecidableEq

/-- The servers from the `i`-th one on; the server has been found when `myPos` is there. `none`: the list does not have
as many servers as it says. -/
def needToForwardLoop (me : Wire.ServerLocation) (isWriteIdPresent : Bool) :
    ℕ → ℕ → Option ℕ → Option Int64 → Wire.ServerLocation → Str → Option Decision
  | 0, _, myPos, writeId, loc, _ => some ⟨false, myPos, loc, writeId⟩
  | n + 1, i, myPos, writeId, _, ist =>
    match readEntry isWriteIdPresent ist with
    | none => none
    | some ((loc, id), ist) =>
      if loc = me then needToForwardLoop me isWriteIdPresent n (i + 1) (some i) id loc ist
      else if myPos.isSome then some ⟨true, myPos, loc, writeId⟩
      else needToForwardLoop me isWriteIdPresent n (i + 1) myPos writeId loc ist

/-- `me` is the server's own location. -/
def needToForwardWrite (me : Wire.ServerLocation) (serverInfo : Str) (numServers : ℕ) (isWriteIdPresent : Bool) :
    Option Decision :=
  needToForwardLoop me isWriteIdPresent numServers 0 none none ⟨[], -1⟩ serverInfo

/-! ## Reading what has been printed -/

/-- The name of a host: a word. -/
structure IsHost (hostname : Str) : Prop where
  ne_nil : hostname ≠ []
  word : ∀ c ∈ hostname, isSpace c = false ∧ c ≠ '\x00'

/-- A list is over, or goes on behind a blank. -/
def Ends (t : Str) : Prop := ∀ c ∈ t.head?, c = ' '

theorem ends_nil : Ends [] := fun _ hc => by cases hc

theorem ends_blank (s : Str) : Ends (" ".toList ++ s) := by
  intro c hc
  exact (Option.some.inj hc).symm

theorem ends_printRest (es : List Entry) : Ends (printRest es) := by
  cases es with
  | nil => exact ends_nil
  | cons e es => exact ends_blank _

theorem Ends.digit {t : Str} (ht : Ends t) : ∀ c ∈ t.head?, c.isDigit = false := by
  intro c hc
  rw [ht c hc]
  rfl

theorem extractWord_append {b w t : Str} (hb : ∀ c ∈ b, isSpace c = true) (hw : IsHost w) (ht : Ends t) :
    extractWord (b ++ (w ++ t)) = some (w, t) := by
  obtain ⟨a, l, rfl⟩ := List.exists_cons_of_ne_nil hw.ne_nil
  have hword : ∀ c ∈ a :: l, (!isSpace c) = true := fun c hc => by rw [(hw.word c hc).1]; rfl
  have hskip : (b ++ (a :: l ++ t)).dropWhile isSpace = a :: l ++ t := by
    rw [List.dropWhile_append_of_pos hb]
    exact List.dropWhile_cons_of_neg (by simp [(hw.word a List.mem_cons_self).1])
  have hend : t.takeWhile (fun c => !isSpace c) = [] ∧ t.dropWhile (fun c => !isSpace c) = t := by
    cases t with
    | nil => exact ⟨rfl, rfl⟩
    | cons c t =>
      obtain rfl : c = ' ' := ht c rfl
      exact ⟨rfl, rfl⟩
  unfold extractWord
  simp only [hskip]
  rw [if_neg (List.append_ne_nil_of_left_ne_nil (List.cons_ne_nil a l) t), List.takeWhile_append_of_pos hword,
    List.dropWhile_append_of_pos hword, hend.1, hend.2, List.append_nil]

theorem extractInt_append {b t : Str} (n : Int32) (hb : ∀ c ∈ b, isSpace c = true) (ht : Ends t) :
    extractInt (b ++ (printInt n.toInt ++ t)) = some (n, t) := by
  have hlo := n.le_toInt
  have hhi := n.toInt_lt
  have hrange : ¬(t = b ++ (printInt n.toInt ++ t) ∨ n.toInt < -2 ^ 31 ∨ 2 ^ 31 ≤ n.toInt) := by
    rintro (h | h | h)
    · have hlen := congrArg List.length h
      have hpos := List.length_pos_of_ne_nil (printInt_ne_nil n.toInt)
      simp only [List.length_append] at hlen
      omega
    · omega
    · omega
  unfold extractInt
  rw [strtoll_printInt_append n.toInt hb ht.digit]
  simp only [if_neg hrange, Int32.ofInt_toInt]

/-- An entry is read back, behind blanks and up to what follows it. -/
theorem readEntry_text {b t : Str} {e : Entry} (hb : ∀ c ∈ b, isSpace c = true) (he : IsHost e.1.hostname)
    (ht : Ends t) : readEntry e.2.isSome (b ++ (Entry.text e ++ t)) = some (e, t) := by
  obtain ⟨⟨hostname, port⟩, id⟩ := e
  cases id with
  | none =>
    have htext : b ++ (Entry.text (⟨hostname, port⟩, none) ++ t) =
        b ++ (hostname ++ (" ".toList ++ (printInt port.toInt ++ t))) := by
      simp [Entry.text, Wire.ServerLocation.ToString]
    rw [htext, readEntry, extractWord_append hb he (ends_blank _)]
    simp only [Option.bind_eq_bind, Option.bind_some, extractInt_append port blank_space ht]
    rfl
  | some id =>
    have htext : b ++ (Entry.text (⟨hostname, port⟩, some id) ++ t) =
        b ++ (hostname ++ (" ".toList ++ (printInt port.toInt ++ (" ".toList ++ (printInt id.toInt ++ t))))) := by
      simp [Entry.text, Wire.ServerLocation.ToString]
    rw [htext, readEntry, extractWord_append hb he (ends_blank _)]
    simp only [Option.bind_eq_bind, Option.bind_some, extractInt_append port blank_space (ends_blank _),
      extract_append id blank_space ht.digit]
    rfl

/-! ## The place of a server -/

variable {me : Wire.ServerLocation} {present : Bool} {e : Entry} {pre post : List Entry}

/-- What is read of a list in which every server has a write-id, or none has. -/
structure Readable (present : Bool) (es : List Entry) : Prop where
  host : ∀ e ∈ es, IsHost e.1.hostname
  id : ∀ e ∈ es, e.2.isSome = present

namespace Readable

theorem tail (h : Readable present (e :: post)) : Readable present post where
  host := fun e he => h.host e (List.mem_cons_of_mem _ he)
  id := fun e he => h.id e (List.mem_cons_of_mem _ he)

theorem read {b t : Str} (h : Readable present (e :: post)) (hb : ∀ c ∈ b, isSpace c = true) (ht : Ends t) :
    readEntry present (b ++ (Entry.text e ++ t)) = some (e, t) := by
  rw [← h.id e List.mem_cons_self]
  exact readEntry_text hb (h.host e List.mem_cons_self) ht

/-- Behind itself a server looks at one entry only. -/
theorem loop_behind (h : Readable present post) (hne : ∀ e ∈ post, e.1 ≠ me) (i k : ℕ) (writeId : Option Int64)
    (loc : Wire.ServerLocation) :
    needToForwardLoop me present post.length i (some k) writeId loc (printRest post) =
      some ⟨!post.isEmpty, some k, (post.head?.map Prod.fst).getD loc, writeId⟩ := by
  cases post with
  | nil => rfl
  | cons e post =>
    have hread : readEntry present (printRest (e :: post)) = some (e, printRest post) := by
      rw [printRest, List.flatMap_cons, List.append_assoc]
      exact h.read blank_space (ends_printRest post)
    simp only [List.length_cons, needToForwardLoop, hread]
    rw [if_neg (hne e List.mem_cons_self)]
    rfl

/-- The entries in front of a server are read over. -/
theorem loop_before (h : Readable present (pre ++ e :: post)) (hnodup : ((pre ++ e :: post).map Prod.fst).Nodup)
    {b : Str} (hb : ∀ c ∈ b, isSpace c = true) (i : ℕ) (loc : Wire.ServerLocation) :
    needToForwardLoop e.1 present (pre ++ e :: post).length i none none loc (b ++ printEntries (pre ++ e :: post)) =
      some ⟨!post.isEmpty, some (i + pre.length), (post.head?.map Prod.fst).getD e.1, e.2⟩ := by
  induction pre generalizing b i loc with
  | nil =>
    have hnot : ∀ e' ∈ post, e'.1 ≠ e.1 := fun e' he' heq =>
      (List.nodup_cons.1 hnodup).1 (heq ▸ List.mem_map_of_mem he')
    have hread := h.read hb (ends_printRest post)
    simp only [List.nil_append, printEntries, List.length_cons, needToForwardLoop, hread]
    rw [if_pos trivial]
    exact h.tail.loop_behind hnot _ _ _ _
  | cons a pre ih =>
    have hne : a.1 ≠ e.1 := fun heq =>
      (List.nodup_cons.1 hnodup).1 (heq ▸ List.mem_map_of_mem (by simp))
    have hread : readEntry present (b ++ printEntries (a :: pre ++ e :: post)) =
        some (a, " ".toList ++ printEntries (pre ++ e :: post)) := by
      have hrest : printRest (pre ++ e :: post) = " ".toList ++ printEntries (pre ++ e :: post) := by
        cases pre with
        | nil => rfl
        | cons a' pre => rfl
      rw [← hrest]
      exact h.read hb (ends_printRest _)
    simp only [List.cons_append, List.length_cons, needToForwardLoop] at hread ⊢
    rw [hread]
    dsimp only
    rw [if_neg hne]
    refine (ih h.tail (List.nodup_cons.1 hnodup).2 blank_space (i + 1) a.1).trans ?_
    rw [Nat.add_right_comm, Nat.add_assoc]

end Readable

/-- **A server finds its place in the list and its own write-id, and forwards exactly when there is a server behind it,
to that one.** -/
theorem needToForwardWrite_spec (h : Readable present (pre ++ e :: post))
    (hnodup : ((pre ++ e :: post).map Prod.fst).Nodup) :
    needToForwardWrite e.1 (printEntries (pre ++ e :: post)) (pre ++ e :: post).length present =
      some ⟨!post.isEmpty, some pre.length, (post.head?.map Prod.fst).getD e.1, e.2⟩ := by
  have hloop := h.loop_before hnodup (b := []) (fun c hc => by cases hc) 0 ⟨[], -1⟩
  rw [Nat.zero_add] at hloop
  exact hloop

/-! ## Lists in a header -/

theorem isSpace_of_isBlank {c : Char} (h : isBlank c = true) : isSpace c = true := by
  have hall : ∀ b ∈ [' ', '\t', '\r', '\n'], isSpace b = true := by simp [isSpace]
  exact hall c (of_decide_eq_true h)

theorem IsHost.not_blank {hostname : Str} (h : IsHost hostname) {c : Char} (hc : c ∈ hostname) : isBlank c = false := by
  by_contra hblank
  have hspace := isSpace_of_isBlank (Bool.eq_true_of_not_eq_false hblank)
  rw [(h.word c hc).1] at hspace
  exact Bool.false_ne_true hspace

/-- A list begins with a host and ends with a number. -/
theorem head_text {e : Entry} (he : IsHost e.1.hostname) : ∃ c s, Entry.text e = c :: s ∧ isBlank c = false := by
  obtain ⟨loc, id⟩ := e
  obtain ⟨c, l, hl⟩ := List.exists_cons_of_ne_nil he.ne_nil
  have hc : isBlank c = false := he.not_blank (by rw [hl]; exact List.mem_cons_self)
  cases id with
  | none => exact ⟨c, _, by rw [Entry.text, Wire.ServerLocation.ToString, hl]; rfl, hc⟩
  | some id => exact ⟨c, _, by rw [Entry.text, Wire.ServerLocation.ToString, hl]; rfl, hc⟩

theorem getLast_printInt (n : ℤ) (s : Str) : ∃ t c, s ++ printInt n = t ++ [c] ∧ isBlank c = false := by
  obtain ⟨t, c, htc⟩ := List.eq_nil_or_concat' (printInt n) |>.resolve_left (printInt_ne_nil n)
  refine ⟨s ++ t, c, by rw [htc, List.append_assoc], ?_⟩
  rcases printInt_mem (htc ▸ List.mem_append_right t (List.mem_singleton_self c) : c ∈ printInt n) with rfl | hd
  · rfl
  · exact isBlank_of_isDigit hd

theorem getLast_text (e : Entry) (s : Str) : ∃ t c, s ++ Entry.text e = t ++ [c] ∧ isBlank c = false := by
  obtain ⟨loc, id⟩ := e
  cases id with
  | none =>
    rw [Entry.text, Wire.ServerLocation.ToString, ← List.append_assoc]
    exact getLast_printInt _ _
  | some id =>
    rw [Entry.text, ← List.append_assoc, ← List.append_assoc]
    exact getLast_printInt _ _

theorem getLast_printEntries (e : Entry) (es : List Entry) :
    ∃ t c, printEntries (e :: es) = t ++ [c] ∧ isBlank c = false := by
  rcases List.eq_nil_or_concat' es with rfl | ⟨es, e', rfl⟩
  · have hlast := getLast_text e []
    rwa [List.nil_append, ← List.append_nil (Entry.text e)] at hlast
  · have htext : printEntries (e :: (es ++ [e'])) = Entry.text e ++ printRest es ++ " ".toList ++ Entry.text e' := by
      simp [printEntries, printRest]
    rw [htext]
    exact getLast_text e' _

/-- A list has no blanks around it. -/
theorem removeLTSpaces_printEntries {es : List Entry} (hes : ∀ e ∈ es, IsHost e.1.hostname) :
    removeLTSpaces (printEntries es) = printEntries es := by
  cases es with
  | nil => rfl
  | cons e es =>
    rw [removeLTSpaces_eq_self_iff]
    constructor
    · obtain ⟨c, s, htext, hc⟩ := head_text (hes e List.mem_cons_self)
      intro b hb
      rw [printEntries, htext, List.cons_append, List.head?_cons] at hb
      exact Option.some.inj hb ▸ hc
    · obtain ⟨t, c, htext, hc⟩ := getLast_printEntries e es
      intro b hb
      rw [htext, List.getLast?_concat] at hb
      exact Option.some.inj hb ▸ hc

/-- The clients put a blank after every entry. -/
theorem flatMap_text {es : List Entry} (hne : es ≠ []) :
    es.flatMap (fun e => Entry.text e ++ " ".toList) = printEntries es ++ [' '] := by
  obtain ⟨e, es, rfl⟩ := List.exists_cons_of_ne_nil hne
  rw [printEntries]
  induction es generalizing e with
  | nil => simp [printRest]
  | cons e' es ih =>
    rw [List.flatMap_cons, ih e' (List.cons_ne_nil _ _)]
    simp [printRest]

theorem printEntries_clean {es : List Entry} (hes : ∀ e ∈ es, IsHost e.1.hostname) : Clean (printEntries es) := by
  have hloc : ∀ l : Wire.ServerLocation, IsHost l.hostname → ∀ c ∈ l.ToString, c ≠ '\n' ∧ c ≠ '\x00' := by
    intro l hl c hc
    rw [Wire.ServerLocation.ToString, List.mem_append, List.mem_append] at hc
    rcases hc with (hc | hc) | hc
    · refine ⟨?_, (hl.word c hc).2⟩
      rintro rfl
      exact absurd (hl.word _ hc).1 (by decide)
    · obtain rfl := List.mem_singleton.1 hc
      exact ⟨by decide, by decide⟩
    · refine ⟨?_, ?_⟩
      · rintro rfl
        exact (clean_printInt _).1 hc
      · rintro rfl
        exact (clean_printInt _).2 hc
  have htext : ∀ e ∈ es, ∀ c ∈ Entry.text e, c ≠ '\n' ∧ c ≠ '\x00' := by
    rintro ⟨loc, id⟩ he c hc
    cases id with
    | none => exact hloc loc (hes _ he) c hc
    | some id =>
      rw [Entry.text, List.mem_append, List.mem_append] at hc
      rcases hc with hc | hc | hc
      · exact hloc loc (hes _ he) c hc
      · obtain rfl := List.mem_singleton.1 hc
        exact ⟨by decide, by decide⟩
      · refine ⟨?_, ?_⟩
        · rintro rfl
          exact (clean_printInt _).1 hc
        · rintro rfl
          exact (clean_printInt _).2 hc
  have hall : ∀ c ∈ printEntries es, c ≠ '\n' ∧ c ≠ '\x00' := by
    intro c hc
    cases es with
    | nil => cases hc
    | cons e es =>
      rw [printEntries, List.mem_append] at hc
      rcases hc with hc | hc
      · exact htext e List.mem_cons_self c hc
      · obtain ⟨e', he', hc⟩ := List.mem_flatMap.1 hc
        rcases List.mem_append.1 hc with hc | hc
        · obtain rfl := List.mem_singleton.1 hc
          exact ⟨by decide, by decide⟩
        · exact htext e' (List.mem_cons_of_mem _ he') c hc
  exact ⟨fun h => (hall _ h).1 rfl, fun h => (hall _ h).2 rfl⟩

theorem length_le_printEntries {es : List Entry} (hes : ∀ e ∈ es, IsHost e.1.hostname) :
    es.length ≤ (printEntries es).length := by
  have hrest : ∀ es : List Entry, es.length ≤ (printRest es).length := by
    intro es
    induction es with
    | nil => exact Nat.zero_le _
    | cons e es ih =>
      rw [printRest, List.flatMap_cons, List.length_append, List.length_append, List.length_cons]
      rw [printRest] at ih
      have hblank : " ".toList.length = 1 := rfl
      omega
  cases es with
  | nil => exact Nat.zero_le _
  | cons e es =>
    obtain ⟨c, s, htext, -⟩ := head_text (hes e List.mem_cons_self)
    have hlen := hrest es
    rw [printEntries, htext, List.length_append, List.length_cons, List.length_cons]
    omega

/-- `n` servers with their write-ids. -/
def readEntries : ℕ → Str → Option (List Entry)
  | 0, _ => some []
  | n + 1, ist => do
    let (e, ist) ← readEntry true ist
    let es ← readEntries n ist
    some (e :: es)

theorem readEntries_printEntries {es : List Entry} (hes : Readable true es) {b : Str}
    (hb : ∀ c ∈ b, isSpace c = true) : readEntries es.length (b ++ printEntries es) = some es := by
  induction es generalizing b with
  | nil => rfl
  | cons e es ih =>
    have hread := hes.read hb (ends_printRest es)
    have hrest : (readEntries es.length (printRest es)) = some es := by
      cases es with
      | nil => rfl
      | cons e' es => exact ih hes.tail blank_space
    rw [printEntries, List.length_cons, readEntries, hread]
    simp only [Option.bind_eq_bind, Option.bind_some, hrest]

end Kfs.Forward
