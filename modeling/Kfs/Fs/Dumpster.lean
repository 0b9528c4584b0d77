import Kfs.Fs.Tidy

/-!
# The dumpster

* `splitPath_tempname`, `lookupPath_dumpster`: where the name of a busy file leads;
* `getDentry_mkdirAt`, `getFattr_mkdirAt`, `dents_mkdirAt`: reading after a `mkdir`;
* **`fresh_checked`**: a renaming into a dumpster that has just been made passes every check.
-/

namespace Kfs

variable {env : Env} {fs fs' : Fs} {l l' : List Meta} {dir fid st : ℤ} {name : Str}

/-! ## The name of a busy file -/

theorem digits_isDigit {n : ℕ} {c : Char} (h : c ∈ (toString n).toList) : c.isDigit = true := by
  rw [Nat.toString_eq_repr, Nat.toList_repr] at h
  exact Nat.isDigit_of_mem_toDigits (by decide) (by decide) h

theorem digits_ne_nil (n : ℕ) : (toString n).toList ≠ [] := by
  rw [Nat.toString_eq_repr, Nat.toList_repr]
  exact Nat.toDigits_ne_nil

theorem digits_not_slash {n : ℕ} {c : Char} (h : c ∈ (toString n).toList) : c ≠ '/' := by
  rintro rfl
  exact absurd (digits_isDigit h) (by decide)

theorem legalname_iff : legalname name = true ↔ name ≠ [] ∧ '/' ∉ name := by
  simp [legalname]

theorem legalname_append_digits (h : legalname name = true) (n : ℕ) :
    legalname (name ++ (toString n).toList) = true := by
  rw [legalname_iff] at h ⊢
  refine ⟨by simp [h.1], fun hm => ?_⟩
  rcases List.mem_append.mp hm with hm | hm
  · exact h.2 hm
  · exact digits_not_slash hm rfl

/-- The name in the dumpster ends in a digit, so it is not one of the dot entries. -/
theorem append_digits_ne {c : Char} (hc : c.isDigit = false) (u : Str) (n : ℕ) :
    name ++ (toString n).toList ≠ u ++ [c] := by
  intro he
  have hlast := congrArg List.getLast? he
  rw [List.getLast?_append_of_ne_nil _ (digits_ne_nil n), List.getLast?_concat] at hlast
  have := digits_isDigit (List.mem_of_getLast? hlast)
  rw [hc] at this
  exact Bool.false_ne_true this

/-- Splitting a path at its last slash. -/
theorem splitPath_append {u v : Str} (h : '/' ∉ v) : splitPath (u ++ '/' :: v) = (u, v) := by
  have hr : ∀ x ∈ v.reverse, decide (x ≠ '/') = true := by
    intro x hx
    rw [List.mem_reverse] at hx
    exact decide_eq_true fun he => h (he ▸ hx)
  simp only [splitPath, List.reverse_append, List.reverse_cons, List.append_assoc,
    List.cons_append, List.nil_append]
  rw [List.dropWhile_append_of_pos hr, List.takeWhile_append_of_pos hr]
  simp

theorem splitPath_tempname (h : legalname name = true) (n : ℕ) : splitPath (tempname name n) =
    ('/' :: DUMPSTERDIR, name ++ (toString n).toList) := by
  have := splitPath_append (u := '/' :: DUMPSTERDIR)
    (legalname_iff.mp (legalname_append_digits h n)).2
  rw [← this, tempname]
  simp

theorem lookupPath_dumpster (l : List Meta) (dir : ℤ) :
    lookupPath l dir ('/' :: DUMPSTERDIR) = lookup l ROOTFID DUMPSTERDIR := by
  simp only [lookupPath, List.head?_cons, decide_true, or_true, if_true, List.tail_cons]
  rw [if_neg (by decide), show DUMPSTERDIR.splitOn '/' = [DUMPSTERDIR] by decide]
  rfl

/-! ## A new directory -/

section

variable {d : ℤ} {dname : Str} {id : ℤ}

theorem getFattr_mkdirAt (h : fid ≠ id) :
    getFattr (Fs.mkdirAt env fs dir dname id).leaves fid = getFattr fs.leaves fid := by
  simp only [Fs.mkdirAt, getFattr_insert_dentry]
  rw [getFattr_insert_of_ne (f := MetaFattr.new env .dir id 1) (Ne.symm h), getFattr_insert_dentry]

theorem getDentry_mkdirAt {x : MetaDentry} (h : getDentry fs.leaves d name = some (some x))
    (hd : d = dir → name ≠ dname) (hid : d ≠ id) :
    getDentry (Fs.mkdirAt env fs dir dname id).leaves d name = some (some x) := by
  refine getDentry_insert (getDentry_insert ?_ fun he => absurd he.symm hid) fun he => absurd he.symm hid
  rw [getDentry_insert_fattr]
  exact getDentry_insert h fun he => (hd he.symm).symm

theorem mem_dentry_mkdirAt {x : MetaDentry} : .dentry x ∈ (Fs.mkdirAt env fs dir dname id).leaves ↔
    x = ⟨id, ['.', '.'], dir⟩ ∨ x = ⟨id, ['.'], id⟩ ∨ x = ⟨dir, dname, id⟩ ∨ .dentry x ∈ fs.leaves := by
  simp [Fs.mkdirAt, Leaves.mem_insert]

theorem mem_fattr_mkdirAt {f : MetaFattr} : .fattr f ∈ (Fs.mkdirAt env fs dir dname id).leaves ↔
    f = MetaFattr.new env .dir id 1 ∨ .fattr f ∈ fs.leaves := by
  simp [Fs.mkdirAt, Leaves.mem_insert]

/-- A new directory has its two dot entries. -/
theorem dents_mkdirAt (hnew : dents fs.leaves id = []) (hdir : dir ≠ id) :
    List.Perm (dents (Fs.mkdirAt env fs dir dname id).leaves id)
      [⟨id, ['.'], id⟩, ⟨id, ['.', '.'], dir⟩] := by
  have h₁ : dents (Leaves.insert (Leaves.insert fs.leaves (.dentry ⟨dir, dname, id⟩))
      (.fattr (MetaFattr.new env .dir id 1))) id = [] := by
    rw [dents_insert_fattr, dents_insert_of_ne hdir, hnew]
  obtain ⟨u, v, h₂, h₃⟩ := dents_insert_split (Leaves.insert (Leaves.insert fs.leaves
    (.dentry ⟨dir, dname, id⟩)) (.fattr (MetaFattr.new env .dir id 1))) ⟨id, ['.'], id⟩
  obtain ⟨u', v', h₄, h₅⟩ := dents_insert_split (Leaves.insert (Leaves.insert (Leaves.insert fs.leaves
    (.dentry ⟨dir, dname, id⟩)) (.fattr (MetaFattr.new env .dir id 1)))
    (.dentry ⟨id, ['.'], id⟩)) ⟨id, ['.', '.'], dir⟩
  rw [h₁] at h₂
  obtain ⟨rfl, rfl⟩ := List.append_eq_nil_iff.mp h₂.symm
  have h₆ : u' ++ v' = [⟨id, ['.'], id⟩] := h₄.symm.trans h₃
  change List.Perm (dents _ id) _
  rw [show dents (Fs.mkdirAt env fs dir dname id).leaves id = _ from h₅]
  refine List.perm_middle.trans ?_
  rw [h₆]
  exact List.Perm.swap _ _ _

end

/-! ## A new dumpster -/

/-- The state with a dumpster that has just been made. -/
def Fs.withDumpster (env : Env) (fs : Fs) : Fs :=
  Fs.mkdirAt env { fs with fileID := fs.fileID + 1 } ROOTFID DUMPSTERDIR (fs.fileID + 1)

theorem lookup_withDumpster (h : Tidy fs) (hd : lookup fs.leaves ROOTFID DUMPSTERDIR = some none)
    {fa : MetaFattr} (hl : lookup (fs.withDumpster env).leaves ROOTFID DUMPSTERDIR = some (some fa)) :
    fa = MetaFattr.new env .dir (fs.fileID + 1) 1 := by
  obtain ⟨x, hx, hf⟩ := lookup_some hl
  obtain ⟨hxm, hxd, hxn⟩ := getDentry_some hx
  obtain ⟨hfm, hfi⟩ := getFattr_some hf
  have hroot := h.root
  have hxi : x.id = fs.fileID + 1 := by
    rcases mem_dentry_mkdirAt.mp hxm with rfl | rfl | rfl | hxm
    · exact absurd hxn (show ¬ ['.', '.'] = DUMPSTERDIR by decide)
    · exact absurd hxn (show ¬ ['.'] = DUMPSTERDIR by decide)
    · rfl
    · exact absurd hxn (getDentry_none (lookup_none hd) x hxm hxd)
  rcases mem_fattr_mkdirAt.mp hfm with rfl | hfm
  · rfl
  · have := h.attr_le fa hfm
    omega

/-- **A busy file can be moved to a new dumpster**: the target does not exist. -/
theorem fresh_checked (h : Tidy fs) {fa f : MetaFattr} (hl : lookup fs.leaves dir name = some (some fa))
    (ht : fa.type = .file) (hd : lookup fs.leaves ROOTFID DUMPSTERDIR = some none)
    (hf : lookup (fs.withDumpster env).leaves ROOTFID DUMPSTERDIR = some (some f)) (n : ℕ) :
    ∃ p : RenamePlan, p.Checked (fs.withDumpster env).leaves dir name (tempname name n) true ∧
      p.dexists = false := by
  obtain ⟨x, hx, hfa⟩ := lookup_some hl
  obtain ⟨hxm, hxd, hxn⟩ := getDentry_some hx
  obtain ⟨hfam, hfai⟩ := getFattr_some hfa
  have hdir := hxd ▸ h.dir_le x hxm
  have hid := h.id_le x hxm
  have hroot := h.root
  have hlegal : legalname name = true := by
    rcases h.legal x fa hxm hfam hfai with hc | hc
    · rw [ht] at hc
      exact absurd hc (by decide)
    · exact hxn ▸ hc
  have hx' : getDentry (fs.withDumpster env).leaves dir name = some (some x) := by
    refine getDentry_mkdirAt hx (fun he hn => ?_) (by omega)
    rw [he, hn] at hx
    rw [lookup_none hd] at hx
    simp at hx
  have hfa' : getFattr (fs.withDumpster env).leaves x.id = some fa :=
    (getFattr_mkdirAt (by omega)).trans hfa
  obtain rfl := lookup_withDumpster h hd hf
  refine ⟨⟨x, fa, fs.fileID + 1, name ++ (toString n).toList, false⟩, ?_, rfl⟩
  refine
    { src := hx'
      target := ?_
      legal := legalname_append_digits hlegal n
      ne := fun hc => absurd hc.1 (by change ¬ fs.fileID + 1 = dir; omega)
      found := lookup_eq hx' hfa'
      dst := ⟨none, ?_, rfl, by simp⟩
      loop := fun hc => absurd hc (by rw [ht]; decide) }
  · unfold renameTarget
    rw [if_pos (by simp [tempname]), splitPath_tempname hlegal, lookupPath_dumpster, hf]
    rfl
  · have hp : List.Perm (dents (fs.withDumpster env).leaves (fs.fileID + 1))
        [⟨fs.fileID + 1, ['.'], fs.fileID + 1⟩, ⟨fs.fileID + 1, ['.', '.'], ROOTFID⟩] := by
      refine dents_mkdirAt ?_ (by omega)
      rw [List.eq_nil_iff_forall_not_mem]
      intro y hy
      rw [mem_dents] at hy
      have := h.dir_le y hy.1
      omega
    apply lookup_eq_none
    rw [getDentry_of_two (by rw [hp.length_eq]; simp), Option.some.injEq, List.find?_eq_none]
    intro y hy
    rw [hp.mem_iff] at hy
    rw [decide_eq_true_eq]
    rcases List.mem_cons.mp hy with rfl | hy
    · exact (append_digits_ne (by decide) [] n).symm
    · rw [List.mem_singleton] at hy
      subst hy
      exact (append_digits_ne (by decide) ['.'] n).symm

end Kfs
