import Kfs.Disk.Codec
import Kfs.Server.Numbers

/-!
# The records that the server writes

* `Req.names`, `FitsLine`: the names of a request, and the length of the lines it is logged as;
* **`handle_onDisk`**: the records of parsed requests with legal names come back from the file.
-/

namespace Kfs

variable {env : Env} {fs fs' : Fs} {s : Sys} {o : Out}

/-- The names of entries in a request. -/
def Req.names : Req → List Str
  | .create _ name _ _ | .mkdir _ name | .remove _ name | .rmdir _ name | .rename _ name _ _ => [name]
  | _ => []

/-- The lines that the step logs are shorter than the buffer of the reader. -/
def FitsLine (s : Sys) (e : Event) : Prop :=
  ∀ r ∈ (handle e.worm e.env s e.req).elim [] Out.log, r.line.length < MAXLINE

theorem done_log {s : Sys} {st : ℤ} {r r' : LogRec} (h : r' ∈ (done s st fs r).log) : st = 0 ∧ r' = r := by
  simp only [done] at h
  split_ifs at h with hst
  · exact ⟨hst, List.mem_singleton.mp h⟩
  · simp at h

/-- The records of parsed requests are readable and have plain names. -/
theorem Handled.readable {req : Req} (hN : Numbered s) (hp : req.Parsed)
    (hn : ∀ n ∈ req.names, legalname n = true) (ho : Handled env s req o) {r : LogRec} (hr : r ∈ o.log) :
    r.Readable ∧ ∀ name ∈ r.names, TextName name := by
  have hroot := hN.tidy.root
  have hr2 : ROOTFID = 2 := rfl
  cases ho with
  | refused => simp [refuse] at hr
  | @create dir name n exclusive st id fs' hd hc =>
    obtain ⟨rfl, rfl⟩ := done_log hr
    obtain ⟨hdir, ht, h0, hn64⟩ := hp
    have hid : id ≠ -1 := by
      rcases create_spec hc with ⟨h0, -⟩ | ⟨-, -, fa, hl, hfa, st₁, fs₁, hrm, ⟨h₁, h₂, -⟩ | ⟨-, -, hid, -⟩⟩
      · exact absurd h0 (lt_irrefl _)
      · exact absurd (h₁.symm.trans h₂.symm) (by decide)
      · have := (removeOld_tidy hN.tidy hrm).2
        simp only [if_true] at hid
        omega
    have h64 : MAX_REPLICAS_PER_FILE = 64 := rfl
    exact ⟨⟨by omega, hn name (by simp [Req.names]), hid, h0.le, by omega⟩, by simpa [LogRec.names] using ht⟩
  | @mkdir dir name st id fs' hd hm =>
    obtain ⟨rfl, rfl⟩ := done_log hr
    obtain ⟨hdir, ht⟩ := hp
    have hleg := hn name (by simp [Req.names])
    have hid : id ≠ -1 := by
      rcases mkdir_spec hm with ⟨h0, -⟩ | ⟨-, -, -, ⟨-, -, hid, -⟩ | ⟨-, hs, -⟩ | ⟨h0, -⟩⟩
      · exact absurd h0 (lt_irrefl _)
      · omega
      · rw [hs] at hleg
        exact absurd hleg (by decide)
      · exact absurd rfl h0
    exact ⟨⟨by omega, hleg, hid⟩, by simpa [LogRec.names] using ht⟩
  | @remove dir name st fs' hrm =>
    obtain ⟨rfl, rfl⟩ := done_log hr
    obtain ⟨hdir, ht⟩ := hp
    exact ⟨⟨by omega, hn name (by simp [Req.names])⟩, by simpa [LogRec.names] using ht⟩
  | @rmdir dir name st fs' hrm =>
    obtain ⟨rfl, rfl⟩ := done_log hr
    obtain ⟨hdir, ht⟩ := hp
    exact ⟨⟨by omega, hn name (by simp [Req.names])⟩, by simpa [LogRec.names] using ht⟩
  | @rename dir oldname newname overwrite st fs' hrn =>
    obtain ⟨rfl, rfl⟩ := done_log hr
    obtain ⟨hdir, hold, hnew⟩ := hp
    exact ⟨⟨by omega, hn oldname (by simp [Req.names])⟩, by simpa [LogRec.names] using ⟨hold, hnew⟩⟩
  | @allocate fid offset reply placed o ha =>
    obtain ⟨hf, ho⟩ := hp
    rcases startAllocate_spec ha with
      ⟨-, rfl⟩ | ⟨fa, -, -, -, ⟨c, hc, ⟨st, -, rfl⟩ | ⟨-, rfl⟩ | ⟨-, rfl⟩⟩ | ⟨-, ⟨-, rfl⟩ | ⟨-, rfl⟩⟩⟩
    · simp [refuse] at hr
    · simp [refuse] at hr
    · obtain ⟨-, rfl⟩ := done_log hr
      obtain ⟨hm, -, -⟩ := getChunk_spec hN.plain (chunkStartOffset_ne offset) hc
      obtain ⟨h₁, -, h₃⟩ := hN.chunk c hm
      exact ⟨⟨by omega, by omega, by omega, by omega⟩, by simp [LogRec.names]⟩
    · simp at hr
    · simp at hr
    · simp [refuse] at hr
  | @assigned i a st fs' hi ha =>
    obtain ⟨-, rfl⟩ := done_log hr
    obtain ⟨h₁, h₂, -, h₃, -, h₄⟩ := hN.pending a (List.mem_of_getElem? hi)
    exact ⟨⟨by omega, by omega, by omega, by omega⟩, by simp [LogRec.names]⟩
  | layoutFailed hi =>
    obtain ⟨-, rfl⟩ := done_log hr
    exact ⟨trivial, by simp [LogRec.names]⟩
  | @truncate fid offset reply placed st a fs' hc hst =>
    obtain ⟨-, rfl⟩ := done_log hr
    obtain ⟨hf, ho⟩ := hp
    exact ⟨⟨by omega, by omega⟩, by simp [LogRec.names]⟩
  | truncateAlloc hc hst ha => simp at hr
  | changeFileReplication hc => simp at hr
  | changeIncarnationNumber =>
    obtain ⟨-, rfl⟩ := done_log hr
    exact ⟨trivial, by simp [LogRec.names]⟩
  | cleanupDumpster hc => simp at hr
  | emptyDumpsterDir hc => simp at hr

/-- **The records of parsed requests with legal names come back from the file.** -/
theorem handle_onDisk {e : Event} (hN : Numbered s) (hp : e.req.Parsed)
    (hn : ∀ n ∈ e.req.names, legalname n = true) (hf : FitsLine s e)
    (ho : handle e.worm e.env s e.req = some o) : ∀ r ∈ o.log, r.OnDisk := by
  intro r hr
  obtain ⟨hread, htext⟩ := (handle_cases ho).readable hN hp hn hr
  exact ⟨hread, hf r (by rwa [ho]), htext⟩

end Kfs
