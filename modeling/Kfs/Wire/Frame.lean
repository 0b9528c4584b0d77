import Kfs.Lib.Delim
import Kfs.Lib.Stream
import Kfs.Wire.Properties

/-!
# Framing

A receiver looks for the empty line at the end of a header, in the first bytes of its buffer only.

* `MAX_RPC_HEADER_LEN`, `IsMsgAvail`: what a receiver looks for;
* `Header.Framed`: a header that is short enough and has no empty line in a value;
* **`Header.isMsgAvail_iff`**: exactly these are found at their ends, whatever follows;
* `isMsgAvail_prefix`: what a receiver sees when only a part has arrived.
-/

namespace Kfs

open Lib

def MAX_RPC_HEADER_LEN : ℕ := 1024

/-- The empty line, with the end of the line before it. -/
def blankLine : Str := ['\r', '\n', '\r', '\n']

theorem mem_blankLine {c : Char} (h : c ∈ blankLine) : c = '\r' ∨ c = '\n' := by
  simp only [blankLine, List.mem_cons, List.not_mem_nil, or_false] at h
  tauto

/-- The length of the message at the front of a buffer. -/
def IsMsgAvail (iobuf : Str) : Option ℕ := findEnd blankLine (iobuf.take MAX_RPC_HEADER_LEN)

theorem blankLine_ne_nil : blankLine ≠ [] := List.cons_ne_nil _ _

theorem isMsgAvail_iff {iobuf : Str} {n : ℕ} :
    IsMsgAvail iobuf = some n ↔ findEnd blankLine iobuf = some n ∧ n ≤ MAX_RPC_HEADER_LEN :=
  findEnd_take blankLine_ne_nil

/-- Of a message, a receiver sees nothing before it has arrived, and then all of it. -/
theorem isMsgAvail_prefix {s b : Str} {n : ℕ} (h : IsMsgAvail s = some n) (hb : b <+: s) :
    IsMsgAvail b = if n ≤ b.length then some n else none := by
  obtain ⟨hs, hn⟩ := isMsgAvail_iff.mp h
  obtain ⟨t, rfl⟩ := hb
  have hcut (m : ℕ) : findEnd blankLine b = some m ↔ findEnd blankLine (b ++ t) = some m ∧ m ≤ b.length := by
    have := findEnd_take (s := b ++ t) (n := m) (k := b.length) blankLine_ne_nil
    rwa [List.take_left] at this
  split_ifs with hle
  · exact isMsgAvail_iff.mpr ⟨(hcut n).mpr ⟨hs, hle⟩, hn⟩
  · rw [Option.eq_none_iff_forall_ne_some]
    intro m hm
    obtain ⟨hm, hmb⟩ := (hcut m).mp (isMsgAvail_iff.mp hm).1
    rw [hs] at hm
    exact hle (Option.some.inj hm ▸ hmb)

/-- What has been found is not empty and has arrived. -/
theorem isMsgAvail_le {s : Str} {n : ℕ} (h : IsMsgAvail s = some n) : 4 ≤ n ∧ n ≤ s.length :=
  findEnd_le (isMsgAvail_iff.mp h).1

/-! ## Headers -/

/-- A text without ends of lines. -/
def OneLine (s : Str) : Prop := ∀ c ∈ s, c ∉ blankLine

instance (s : Str) : Decidable (OneLine s) := List.decidableBAll (fun c => c ∉ blankLine) s

/-- The fixed parts of a header are texts without ends of lines. -/
structure Header.Plain (h : Header) : Prop where
  command : OneLine h.command
  key : ∀ f ∈ h.fields, OneLine f.key
  key_ne : ∀ f ∈ h.fields, f.key ≠ []

theorem Header.Plain.of_regular {h : Header} {w : Str} (hr : h.regular w = true) : h.Plain := by
  simp only [Header.regular, regularKeys, Bool.and_eq_true, List.all_eq_true, decide_eq_true_eq] at hr
  obtain ⟨⟨⟨hcommand, -⟩, hword⟩, hkeys⟩ := hr
  have hline (c : Char) (hc : c ∈ blankLine) : c ∈ ['\r', '\n', '\x00'] := by
    rcases mem_blankLine hc with rfl | rfl
    · decide
    · decide
  have hspace (c : Char) (hc : c ∈ blankLine) : isSpace c = true := by
    rcases mem_blankLine hc with rfl | rfl
    · decide
    · decide
  have hw : OneLine w := by
    intro c hc hb
    have := hword c hc
    simp [hspace c hb] at this
  have hkey (f : Field) (hf : f ∈ h.fields) := hkeys f.key (List.mem_map_of_mem hf)
  refine ⟨?_, fun f hf c hc hb => (hkey f hf).2 c hc (hline c hb), fun f hf => List.ne_nil_of_mem (hkey f hf).1.1⟩
  rcases hcommand with h | h
  · exact h ▸ hw
  · rw [h]
    intro c hc
    rcases List.mem_append.mp hc with hc | hc
    · exact hw c hc
    · rw [List.mem_singleton.mp hc]
      decide

/-- A header that a receiver finds. -/
structure Header.Framed (h : Header) : Prop where
  length : h.text.length ≤ MAX_RPC_HEADER_LEN
  value : ∀ f ∈ h.fields, ¬ blankLine <:+: f.value ++ CRLF

/-- A line without an end in it is not an empty line. -/
theorem OneLine.not_infix {s : Str} (hs : '\n' ∉ s) : ¬ blankLine <:+: s ++ CRLF := by
  intro h
  have hcount := h.sublist.count_le '\n'
  rw [List.count_append, List.count_eq_zero_of_not_mem hs] at hcount
  exact absurd hcount (by decide)

theorem infix_lines {fields : List Field} (hkey : ∀ f ∈ fields, OneLine f.key) (hne : ∀ f ∈ fields, f.key ≠ [])
    (x : Str) :
    blankLine <:+: x ++ fields.flatMap Field.text ↔
      blankLine <:+: x ∨ ∃ f ∈ fields, blankLine <:+: f.value ++ CRLF := by
  induction fields generalizing x with
  | nil => simp
  | cons f fields ih =>
    have htext : x ++ (f :: fields).flatMap Field.text =
        x ++ (f.key ++ (f.value ++ CRLF ++ fields.flatMap Field.text)) := by
      simp [Field.text]
    have hf := List.mem_cons_self (a := f) (l := fields)
    rw [htext, infix_append_iff_of_disjoint (hne f hf) (hkey f hf),
      ih (fun g hg => hkey g (List.mem_cons_of_mem _ hg)) fun g hg => hne g (List.mem_cons_of_mem _ hg)]
    simp

namespace Header

variable {h : Header}

/-- A header ends with the empty line, and what stands before. -/
theorem text_eq (h : Header) : ∃ s, h.text = s ++ blankLine ∧
    s ++ blankLine.dropLast = h.command ++ CRLF ++ h.fields.flatMap Field.text ++ ['\r'] := by
  obtain ⟨command, fields⟩ := h
  rcases List.eq_nil_or_concat' fields with rfl | ⟨l, f, rfl⟩
  · exact ⟨command, by simp [text, CRLF, blankLine], by simp [CRLF, blankLine]⟩
  · refine ⟨command ++ CRLF ++ l.flatMap Field.text ++ (f.key ++ f.value), ?_, ?_⟩ <;>
      simp [text, Field.text, CRLF, blankLine]

/-- The first empty line is at the end exactly when no value makes one. -/
theorem findEnd_iff (hp : h.Plain) (rest : Str) :
    findEnd blankLine (h.text ++ rest) = some h.text.length ↔ ∀ f ∈ h.fields, ¬ blankLine <:+: f.value ++ CRLF := by
  obtain ⟨s, htext, hbody⟩ := h.text_eq
  have hlen : h.text.length = s.length + blankLine.length := by rw [htext, List.length_append]
  have hcommand : ¬ blankLine <:+: h.command ++ CRLF := OneLine.not_infix fun hc => hp.command _ hc (by decide)
  rw [hlen, htext, findEnd_append_iff blankLine_ne_nil, hbody, infix_concat_iff blankLine_ne_nil (by decide),
    infix_lines hp.key hp.key_ne]
  simp [hcommand]

/-- **A header is found at its end exactly when it is short and none of its values makes an empty line.** -/
theorem isMsgAvail_iff (hp : h.Plain) (rest : Str) :
    IsMsgAvail (h.text ++ rest) = some h.text.length ↔ h.Framed := by
  rw [Kfs.isMsgAvail_iff, findEnd_iff hp]
  exact ⟨fun h => ⟨h.2, h.1⟩, fun h => ⟨h.value, h.length⟩⟩

/-- A header that is read as it has been written is found when it is short. -/
theorem Sound.isMsgAvail {w : Str} (hs : h.Sound w) (rest : Str) :
    IsMsgAvail (h.text ++ rest) = if h.text.length ≤ MAX_RPC_HEADER_LEN then some h.text.length else none := by
  have hfind := (findEnd_iff (.of_regular hs.regular) rest).mpr fun f hf => OneLine.not_infix (hs.value f hf).1
  split_ifs with hlen
  · exact Kfs.isMsgAvail_iff.mpr ⟨hfind, hlen⟩
  · rw [Option.eq_none_iff_forall_ne_some]
    intro n hn
    obtain ⟨hn, hle⟩ := Kfs.isMsgAvail_iff.mp hn
    rw [hfind] at hn
    exact hlen (Option.some.inj hn ▸ hle)

end Header

end Kfs
