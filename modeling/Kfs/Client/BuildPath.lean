import Kfs.Base
import Kfs.Lib.Decimal
import Kfs.Lib.Undo

/-!
# Paths of the client

`build_path` puts the current directory before a path that is not absolute, and `strip_dots` goes through the
components of the path, each with the slash before it, on a stack.

* `strip_dots`, `build_path`;
* `location`: the directories that the components of a path lead to, one by one;
* **`build_path_right_iff`**: the result is a path without `.` and `..` that stays as it is, and it names the same
  location exactly when no `..` that should take away a name finds an empty component there.
-/

namespace Kfs.Client

open Kfs.Lib

def dot : Str := ['.']

def dotdot : Str := ['.', '.']

/-- The loop of `strip_dots`, from behind the slash at `start` on. -/
def stripLoop (path : Str) (component : List Str) : List Str :=
  let nextc := '/' :: path.takeWhile (· ≠ '/')
  let component :=
    if nextc = '/' :: dotdot then component.dropLast
    else if nextc ≠ '/' :: dot then component ++ [nextc]
    else component
  match _h : path.dropWhile (· ≠ '/') with
  | [] => component
  | _ :: rest => stripLoop rest component
  termination_by path.length
  decreasing_by
    have hle := (List.dropWhile_suffix (· ≠ '/') (l := path)).length_le
    rw [_h, List.length_cons] at hle
    omega

def strip_dots : Str → Option Str
  | '/' :: path =>
    let component := stripLoop path []
    let component := if component = [] then [['/']] else component
    some component.flatten
  | _ => none

def isAbsolute (path : Str) : Bool := path.head? = some '/'

/-- The path that `build_path` strips. -/
def joined (cwd input : Str) : Str :=
  if isAbsolute input then input else (if cwd = ['/'] then cwd else cwd ++ ['/']) ++ input

def build_path (cwd input : Str) : Option Str := strip_dots (joined cwd input)

/-! ## What a path names -/

def nameMove (name : Str) : Move :=
  if name = dotdot then .pop else if name = dot ∨ name = [] then .skip else .push

/-- The components of a path are resolved one by one, from `start` on. -/
def resolve (start : List Str) (path : Str) : List Str := (path.splitOn '/').foldl (Undo.step nameMove) start

/-- The names of the directories, from the root on, that a path leads to. -/
def location (cwd input : Str) : List Str :=
  if isAbsolute input then resolve [] input else resolve (resolve [] cwd) input

def Right (cwd input : Str) (res : Option Str) : Prop :=
  ∃ path, res = some path ∧ isAbsolute path = true ∧ (∀ name ∈ path.splitOn '/', name ≠ dot ∧ name ≠ dotdot) ∧
    resolve [] path = location cwd input ∧ build_path cwd path = some path

/-- How often a component names a directory. -/
def names (l : List Str) : ℕ := l.countP fun name => name ≠ [] ∧ name ≠ dot ∧ name ≠ dotdot

def empties (l : List Str) : ℕ := l.count []

def ups (l : List Str) : ℕ := l.count dotdot

/-- No name stays because empty components are taken away in its place: what the `..` behind it cannot use up with the
empty components, they cannot use up without these either. -/
def NoneSpared (cwd input : Str) : Prop :=
  ∀ name rest, name :: rest <:+ (joined cwd input).splitOn '/' → name ≠ [] → name ≠ dot → name ≠ dotdot →
    (∀ q, q <+: rest → ups q ≤ names q + empties q) → ∀ q, q <+: rest → ups q ≤ names q

/-! ## The stack of components -/

def componentMove (name : Str) : Move :=
  if name = dotdot then .pop else if name = dot then .skip else .push

variable {path cwd input name : Str} {l : List Str}

theorem takeWhile_dropWhile_nil (h : path.dropWhile (· ≠ '/') = []) :
    path.takeWhile (· ≠ '/') = path ∧ path.splitOn '/' = [path] := by
  have hall : ∀ c ∈ path, (c ≠ '/' : Bool) = true := List.dropWhile_eq_nil_iff.1 h
  refine ⟨List.takeWhile_eq_self_iff.2 hall, List.splitOn_eq_singleton fun hmem => ?_⟩
  simpa using hall _ hmem

theorem takeWhile_dropWhile_cons {c : Char} {rest : Str} (h : path.dropWhile (· ≠ '/') = c :: rest) :
    path.splitOn '/' = path.takeWhile (· ≠ '/') :: rest.splitOn '/' := by
  have hc : c = '/' := by
    have hnot := List.head?_dropWhile_not (fun x : Char => decide (x ≠ '/')) path
    rw [h] at hnot
    simpa using hnot
  have hno : '/' ∉ path.takeWhile (· ≠ '/') := by
    intro hmem
    simpa using List.mem_takeWhile_imp hmem
  conv_lhs => rw [← List.takeWhile_append_dropWhile (p := (· ≠ '/')) (l := path), h, hc]
  rw [List.splitOn_append_cons_self, List.splitOn_eq_singleton hno, List.singleton_append]

/-- What a component does to the stack. -/
theorem step_component : (if '/' :: name = '/' :: dotdot then (l.map ('/' :: ·)).dropLast
      else if '/' :: name ≠ '/' :: dot then l.map ('/' :: ·) ++ ['/' :: name] else l.map ('/' :: ·)) =
    (Undo.step componentMove l name).map ('/' :: ·) := by
  simp only [List.cons_inj_right, ne_eq, Undo.step, componentMove]
  split_ifs with hup hdot
  · exact List.map_dropLast.symm
  · rfl
  · rw [List.map_append, List.map_singleton]

theorem stripLoop_eq : stripLoop path (l.map ('/' :: ·)) =
    ((path.splitOn '/').foldl (Undo.step componentMove) l).map ('/' :: ·) := by
  induction hn : path.length using Nat.strong_induction_on generalizing path l with
  | _ n ih =>
    rw [stripLoop, step_component]
    split
    case _ h =>
      obtain ⟨htake, hsplit⟩ := takeWhile_dropWhile_nil h
      rw [hsplit, htake, List.foldl_cons, List.foldl_nil]
    case _ c rest h =>
      have hle := (List.dropWhile_suffix (· ≠ '/') (l := path)).length_le
      rw [h, List.length_cons] at hle
      rw [takeWhile_dropWhile_cons h, List.foldl_cons]
      exact ih rest.length (by omega) rfl

/-! ## The result -/

theorem splitOn_slash_cons (rest : Str) : ('/' :: rest).splitOn '/' = [] :: rest.splitOn '/' :=
  List.splitOn_append_cons_self ([] : Str) rest

/-- A path out of its components. -/
theorem flatten_splitOn (hl : l ≠ []) (hno : ∀ name ∈ l, '/' ∉ name) :
    ∃ path, (l.map ('/' :: ·)).flatten = '/' :: path ∧ path.splitOn '/' = l := by
  induction l with
  | nil => exact absurd rfl hl
  | cons name l ih =>
    have hname := List.splitOn_eq_singleton (hno name List.mem_cons_self)
    cases l with
    | nil => exact ⟨name, by simp, hname⟩
    | cons next l =>
      obtain ⟨path, hpath, hsplit⟩ := ih (List.cons_ne_nil _ _) fun n hn => hno n (List.mem_cons_of_mem _ hn)
      refine ⟨name ++ '/' :: path, ?_, ?_⟩
      · rw [List.map_cons, List.flatten_cons, hpath, List.cons_append]
      · rw [List.splitOn_append_cons_self, hname, hsplit, List.singleton_append]

theorem nameMove_pop (name : Str) : componentMove name = .pop ↔ nameMove name = .pop := by
  unfold componentMove nameMove
  split_ifs <;> simp_all

theorem nameMove_push (name : Str) : nameMove name = .push → componentMove name = .push := by
  unfold componentMove nameMove
  split_ifs <;> simp_all

theorem componentMove_eq_push : componentMove name = .push ↔ name ≠ dot ∧ name ≠ dotdot := by
  unfold componentMove
  split_ifs <;> simp_all [dot, dotdot]

theorem nameMove_eq_push : nameMove name = .push ↔ name ≠ [] ∧ name ≠ dot ∧ name ≠ dotdot := by
  unfold nameMove
  split_ifs with hup hskip
  · simp [hup]
  · simp only [false_iff]
    exact fun h => hskip.elim h.2.1 h.1
  · simp only [true_iff]
    exact ⟨fun h => hskip (Or.inr h), fun h => hskip (Or.inl h), hup⟩

/-- The components that `strip_dots` puts together. -/
def stripped (path : Str) : List Str :=
  let component := Undo.kept componentMove (path.splitOn '/')
  if component = [] then [[]] else component

theorem strip_dots_eq : strip_dots ('/' :: path) = some ((stripped path).map ('/' :: ·)).flatten := by
  have hstack := @stripLoop_eq path []
  rw [Undo.foldl_step_nil, List.map_nil] at hstack
  rw [strip_dots, stripped, hstack]
  by_cases hnil : Undo.kept componentMove (path.splitOn '/') = []
  · rw [hnil]
    rfl
  · rw [if_neg hnil, if_neg (mt List.map_eq_nil_iff.1 hnil)]

theorem mem_stripped (h : name ∈ stripped path) : '/' ∉ name ∧ name ≠ dot ∧ name ≠ dotdot := by
  rw [stripped] at h
  split_ifs at h
  · rw [List.mem_singleton.1 h]
    exact ⟨List.not_mem_nil, by decide, by decide⟩
  · obtain ⟨hmem, hpush⟩ := Undo.mem_kept h
    exact ⟨not_mem_of_mem_splitOn hmem, componentMove_eq_push.1 hpush⟩

theorem stripped_ne_nil : stripped path ≠ [] := by
  rw [stripped]
  split_ifs with h
  · exact List.cons_ne_nil _ _
  · exact h

/-- What has been stripped stays as it is. -/
theorem stripped_eq {rest : Str} (h : rest.splitOn '/' = stripped path) : stripped rest = stripped path := by
  have hpush : ∀ name ∈ stripped path, componentMove name = .push := fun name hn =>
    componentMove_eq_push.2 (mem_stripped hn).2
  have hall : (stripped path).filter (componentMove · = .push) = stripped path :=
    List.filter_eq_self.2 fun name hn => decide_eq_true (hpush name hn)
  have hkept := (@Undo.kept_of_no_pop _ componentMove (stripped path) fun name hn => by rw [hpush name hn]; decide).2
  conv_lhs => rw [stripped, h, hkept, hall]
  exact if_neg stripped_ne_nil

theorem resolve_stripped {rest : Str} (h : rest.splitOn '/' = stripped path) :
    resolve [] ('/' :: rest) = (Undo.kept componentMove (path.splitOn '/')).filter (nameMove · = .push) := by
  have hpop : ∀ name ∈ stripped path, nameMove name ≠ .pop := by
    intro name hn hpop
    rw [← nameMove_pop, componentMove_eq_push.2 (mem_stripped hn).2] at hpop
    cases hpop
  rw [resolve, splitOn_slash_cons, h, List.foldl_cons]
  change (stripped path).foldl (Undo.step nameMove) [] = _
  rw [Undo.foldl_step_nil, (Undo.kept_of_no_pop hpop).2, stripped]
  split_ifs with hnil
  · rw [hnil]
    rfl
  · rfl

theorem joined_absolute (hcwd : isAbsolute cwd = true) : isAbsolute (joined cwd input) = true := by
  unfold joined
  split_ifs with hinput hroot
  · exact hinput
  · rw [hroot]
    rfl
  · cases cwd with
    | nil => cases hcwd
    | cons c rest => exact hcwd

/-- The location is that of the path with the current directory before it. -/
theorem location_eq (cwd input : Str) : location cwd input = resolve [] (joined cwd input) := by
  unfold location joined
  split_ifs with hinput hroot
  · rfl
  · subst hroot
    rw [resolve, resolve, List.singleton_append, splitOn_slash_cons]
    rfl
  · rw [resolve, resolve, resolve, List.append_assoc, List.singleton_append, List.splitOn_append_cons_self,
      List.foldl_append]

theorem countP_pop (q : List Str) :
    q.countP (componentMove · = .pop) = ups q ∧ q.countP (nameMove · = .pop) = ups q := by
  have hmove : ∀ name, componentMove name = .pop ↔ name = dotdot := by
    intro name
    unfold componentMove
    split_ifs with hup hdot
    · exact ⟨fun _ => hup, fun _ => rfl⟩
    · simp [hup]
    · simp [hup]
  have hups : q.countP (componentMove · = .pop) = ups q :=
    List.countP_congr fun name _ => by simp [hmove]
  refine ⟨hups, ?_⟩
  rw [← hups]
  exact List.countP_congr fun name _ => by simp [nameMove_pop]

theorem countP_componentMove (q : List Str) : q.countP (componentMove · = .push) = names q + empties q := by
  induction q with
  | nil => rfl
  | cons name q ih =>
    rw [List.countP_cons, ih, names, names, List.countP_cons, empties, empties, List.count_cons]
    by_cases hempty : name = []
    · subst hempty
      simp [componentMove, dot, dotdot]
      omega
    · have hpush : componentMove name = .push ↔ name ≠ dot ∧ name ≠ dotdot := componentMove_eq_push
      simp [hempty, hpush]
      omega

/-- **The path that is built** is absolute, has no `.` and `..` and stays as it is when it is built again; it names the
same location exactly when no name is spared by empty components behind it. -/
theorem build_path_right_iff (cwd input : Str) (hcwd : isAbsolute cwd = true) :
    Right cwd input (build_path cwd input) ↔ NoneSpared cwd input := by
  obtain ⟨path, hpath⟩ : ∃ path, joined cwd input = '/' :: path := by
    have habs := @joined_absolute cwd input hcwd
    cases hj : joined cwd input with
    | nil =>
      rw [hj] at habs
      cases habs
    | cons c path =>
      rw [hj] at habs
      have hc : c = '/' := by simpa [isAbsolute] using habs
      exact ⟨path, by rw [hc]⟩
  obtain ⟨rest, hflat, hsplit⟩ := flatten_splitOn (@stripped_ne_nil path) fun n hn => (mem_stripped hn).1
  have hres : build_path cwd input = some ('/' :: rest) := by rw [build_path, hpath, strip_dots_eq, hflat]
  have hagain : build_path cwd ('/' :: rest) = some ('/' :: rest) := by
    have hj : joined cwd ('/' :: rest) = '/' :: rest := if_pos rfl
    rw [build_path, hj, strip_dots_eq, stripped_eq hsplit, hflat]
  have hnames : ∀ name ∈ ('/' :: rest).splitOn '/', name ≠ dot ∧ name ≠ dotdot := by
    rw [splitOn_slash_cons, hsplit]
    intro name hn
    cases List.mem_cons.1 hn with
    | inl hempty =>
      rw [hempty]
      exact ⟨by decide, by decide⟩
    | inr hmem => exact (mem_stripped hmem).2
  have hsame : resolve [] ('/' :: rest) = location cwd input ↔ NoneSpared cwd input := by
    have hlocation : location cwd input = Undo.kept nameMove (path.splitOn '/') := by
      rw [location_eq, hpath, resolve, splitOn_slash_cons]
      exact Undo.foldl_step_nil _
    rw [hlocation, resolve_stripped hsplit, Undo.filter_kept_iff nameMove_pop nameMove_push, NoneSpared, hpath,
      splitOn_slash_cons]
    simp only [Undo.pending_eq_zero_iff, countP_pop, countP_componentMove, nameMove_eq_push]
    constructor
    · intro h name rest hsuffix hname hdot hup
      cases List.suffix_cons_iff.1 hsuffix with
      | inl heq => exact absurd (List.cons.inj heq).1 hname
      | inr hs => exact h name rest hs ⟨hname, hdot, hup⟩
    · exact fun h name rest hs hname => h name rest (hs.trans (List.suffix_cons _ _)) hname.1 hname.2.1 hname.2.2
  constructor
  · rintro ⟨p, hp, -, -, hloc, -⟩
    rw [hres] at hp
    cases hp
    exact hsame.1 hloc
  · exact fun h => ⟨_, hres, rfl, hnames, hsame.2 h, hagain⟩

/-- A name that is taken away again. -/
theorem build_path_right_up : Right "/a".toList "../b".toList (build_path "/a".toList "../b".toList) := by
  refine (build_path_right_iff "/a".toList "../b".toList rfl).2 ?_
  have hsplit : (joined "/a".toList "../b".toList).splitOn '/' = [[], ['a'], dotdot, ['b']] := by decide
  intro name rest hsuffix hname hdot hup
  rw [hsplit] at hsuffix
  simp only [List.suffix_cons_iff, List.cons.injEq, List.suffix_nil] at hsuffix
  obtain ⟨rfl, -⟩ | ⟨rfl, rfl⟩ | ⟨rfl, -⟩ | ⟨rfl, rfl⟩ | h := hsuffix
  · exact absurd rfl hname
  · exact fun h => absurd (h [dotdot] ⟨[['b']], rfl⟩) (by decide)
  · exact absurd rfl hup
  · intro _ q hq
    rw [List.prefix_nil.1 hq]
    decide
  · cases h

/-- The parent of a directory whose name is written with two slashes behind it. -/
theorem build_path_spared : ¬ Right "/".toList "/a//..".toList (build_path "/".toList "/a//..".toList) := by
  rintro ⟨path, hpath, -, -, hlocation, -⟩
  have hbuilt : build_path "/".toList "/a//..".toList = some "/a".toList := by
    have hjoined : joined "/".toList "/a//..".toList = '/' :: "a//..".toList := by decide
    rw [build_path, hjoined, strip_dots_eq]
    decide
  rw [hbuilt] at hpath
  cases hpath
  revert hlocation
  decide

end Kfs.Client
