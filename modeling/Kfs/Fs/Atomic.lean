import Kfs.Fs.Dumpster

/-!
# Operations that fail change nothing

The one change that can come before an error is the making of the dumpster; but then the renaming into
it succeeds (`fresh_checked`), because the new dumpster is empty and its id is new.

* `rmdir_atomic`, `renameWith_atomic`, `removeF_atomic`, `create_atomic`.
-/

namespace Kfs

variable {env : Env} {fs fs' : Fs} {dir st : ℤ} {name : Str}

/-- The removals that `rename` is run with change nothing when they fail. -/
def RmAtomic (rm : Fs → ℤ → Str → Option (ℤ × Fs)) : Prop :=
  ∀ ⦃fs dir name st fs'⦄, Tidy fs → rm fs dir name = some (st, fs') → st ≠ 0 →
    fs'.leaves = fs.leaves

theorem rmdir_atomic {dname : Str} (h : rmdir fs dir dname = some (st, fs')) (hst : st ≠ 0) :
    fs'.leaves = fs.leaves := by
  rcases rmdir_spec h with ⟨-, rfl⟩ | ⟨h0, -⟩
  · rfl
  · exact absurd h0 hst

section

variable {rm : Fs → ℤ → Str → Option (ℤ × Fs)}

theorem renameWith_atomic (hrm : RmAtomic rm) (h : Tidy fs) {parent : ℤ} {oldname newname : Str}
    {overwrite : Bool}
    (hr : renameWith rm env fs parent oldname newname overwrite = some (st, fs')) (hst : st ≠ 0) :
    fs'.leaves = fs.leaves := by
  rcases renameWith_spec hr with ⟨-, rfl⟩ | ⟨p, hp, ⟨-, hc⟩ | ⟨h0, -⟩⟩
  · rfl
  · unfold clearTarget at hc
    split_ifs at hc
    · exact rmdir_atomic hc hst
    · exact hrm h hc hst
    · obtain ⟨rfl, -⟩ : 0 = st ∧ fs = fs' := by simpa using hc
      exact absurd rfl hst
  · exact absurd h0 hst

/-- A failure to move a busy file to the dumpster changes nothing: a dumpster that had to be made first
takes the file. -/
theorem moveToDumpsterWith_atomic (hrm : RmAtomic rm) (h : Tidy fs) {fa : MetaFattr}
    (hl : lookup fs.leaves dir name = some (some fa)) (ht : fa.type = .file)
    (hm : moveToDumpsterWith rm env fs dir name = some (st, fs')) (hst : st ≠ 0) :
    fs'.leaves = fs.leaves := by
  obtain ⟨f, fs₁, hg, hcase⟩ := moveToDumpsterWith_spec hm
  rcases getDumpster_spec hg with ⟨-, rfl⟩ | ⟨hd, rfl, hf⟩
  · rcases hcase with ⟨-, -, rfl⟩ | ⟨-, hr⟩
    · rfl
    · have h' : Tidy { fs₁ with counter := fs₁.counter + 1 } :=
        h.of_imp le_rfl (fun _ hm => hm) fun g hg => ⟨g, hg, rfl, rfl⟩
      have := renameWith_atomic hrm h' hr hst
      exact this
  · rcases hcase with ⟨hid, -⟩ | ⟨-, hr⟩
    · obtain ⟨x, hx, -⟩ := lookup_some hl
      obtain ⟨hxm, hxd, -⟩ := getDentry_some hx
      have hle := h.dir_le x hxm
      rw [lookup_withDumpster h hd hf] at hid
      change fs.fileID + 1 = dir at hid
      omega
    · obtain ⟨p, hp, hex⟩ := fresh_checked h hl ht hd hf fs.counter
      rcases renameWith_spec hr with ⟨he, -⟩ | ⟨p', hp', ⟨h0, hc⟩ | ⟨h0, -⟩⟩
      · have hok := (renameCheck_iff.mpr hp).symm.trans he
        simp at hok
      · have hpp : some (Except.ok p) = some (.ok p') :=
          (renameCheck_iff.mpr hp).symm.trans (renameCheck_iff.mpr hp')
        obtain rfl : p = p' := by simpa using hpp
        simp only [clearTarget, hex, Bool.false_eq_true, if_false, Option.some.injEq,
          Prod.mk.injEq] at hc
        exact absurd hc.1.symm h0
      · exact absurd h0 hst

end

theorem removeF_atomic (env : Env) : ∀ fuel, RmAtomic (removeF fuel env)
  | 0 => by
    intro fs dir name st fs' _ hr
    simp [removeF] at hr
  | fuel + 1 => by
    intro fs dir name st fs' h hr hst
    rcases removeF_spec hr with ⟨-, rfl⟩ | ⟨fa, hl, ht, -, ⟨-, -, hm⟩ | ⟨-, h0, -⟩⟩
    · rfl
    · exact moveToDumpsterWith_atomic (removeF_atomic env fuel) h hl ht hm hst
    · exact absurd h0 hst

theorem create_atomic (h : Tidy fs) {newFid id n : ℤ} {exclusive : Bool}
    (hc : create env fs dir name newFid n exclusive = some (st, id, fs')) (hst : st ≠ 0) :
    fs'.leaves = fs.leaves := by
  rcases create_spec hc with
    ⟨-, rfl⟩ | ⟨-, -, fa, -, -, st₁, fs₁, hr, ⟨h₁, h₂, rfl⟩ | ⟨-, h0, -⟩⟩
  · rfl
  · unfold removeOld at hr
    split_ifs at hr
    · exact removeF_atomic env 2 h hr (h₂ ▸ hst)
    · obtain ⟨-, rfl⟩ : 0 = st₁ ∧ fs = fs' := by simpa using hr
      rfl
  · exact absurd h0 hst

end Kfs
