import Fstest.Git.Tap
import Fstest.Lib.Endings
import Mathlib.Data.Char
import Mathlib.Data.List.Lex
import Mathlib.Data.List.Nodup

/-!
# Which of git's scripts are run

The scripts of a tree are the files `t0000-name.sh` of its directory `t`. An entry of the selection stands
for the script that it names, or else for the only one that begins with it. What is selected is what the
entries stand for and the filters let through, each script once and in order, and an entry that stands for
nothing is reported (`selection_spec`).
-/

namespace Fstest.Git

open Text

/-! ## The scripts of a tree -/

def isScript (name : Text) : Bool :=
  name.head? == some 't' && name[1]?.any isDigit && (text ".sh").isSuffixOf name

/-- Rust compares texts by their bytes, which is by their characters. -/
def sort (l : List Text) : List Text := l.mergeSort fun s s' => decide (s ≤ s')

/-- `discover_scripts`, for the names in the directory. -/
def discoverScripts (names : List Text) : List Text :=
  sort ((names.filter isScript).map (trimEndMatches (text ".sh")))

/-! ## The entries -/

def tierA : List Text := [
  -- capability probing + repo layout
  "t0001-init", "t0050-filesystem", "t0055-beyond-symlinks", "t0060-path-utils",
  -- symlink semantics
  "t2005-checkout-index-symlinks", "t2102-update-index-symlinks", "t6405-merge-symlinks",
  "t7515-status-symlinks", "t6415-merge-dir-to-symlink",
  -- case-insensitive filesystems
  "t0003-attributes", "t2100-update-cache-badpath", "t2000-conflict-when-checking-files-out",
  "t2201-add-update-typechange",
  -- unicode normalization (NFD/NFC)
  "t3910-mac-os-precompose",
  -- executable bit / filemode
  "t4000-diff-format", "t4129-apply-samemode",
  -- mtime granularity / racy index
  "t1700-split-index", "t1701-racy-split-index", "t2108-update-index-refresh-racy",
  "t6501-freshen-objects",
  -- lockfiles / ref/index atomicity
  "t0031-lockfile-pid", "t1400-update-ref", "t1410-reflog", "t1600-index", "t5304-prune",
  -- special filenames
  "t3300-funny-names", "t3902-quoted", "t4016-diff-quote",
  -- dircache / fsmonitor
  "t7063-status-untracked-cache", "t7519-status-fsmonitor",
  -- hardlinks / alternates
  "t5605-clone-local", "t5613-info-alternate",
  -- sparse checkout
  "t1011-read-tree-sparse-checkout", "t1090-sparse-checkout-scope",
  -- crlf / working-tree encoding
  "t0020-crlf", "t0028-working-tree-encoding",
  -- permission bits / shared repos
  "t1301-shared-repo", "t1304-default-acl",
  -- large files / deep paths
  "t1050-large", "t7001-mv",
  -- add/rm/rename
  "t2200-add-update", "t3600-rm", "t4008-diff-break-rewrite",
  -- ownership
  "t0033-safe-directory"].map text

def tierB : List Text := [
  "t0027-auto-crlf", "t0021-conversion", "t1092-sparse-checkout-compatibility", "t2400-worktree-add",
  "t2080-parallel-checkout-basics", "t2081-parallel-checkout-collisions", "t3705-add-sparse-checkout",
  "t7704-repack-cruft",
  -- case-insensitive deep-dives
  "t6131-pathspec-icase", "t7062-wtstatus-ignorecase", "t6419-merge-ignorecase"].map text

structure Args where
  tier : Text := text "a"
  tests : List Text := []
  filter : List Text := []
  jobs : ℕ := 4

/-- The error is the name of the tier. -/
def Args.entries (a : Args) (scripts : List Text) : Except Text (List Text) :=
  if a.tests ≠ [] then .ok a.tests
  else if a.tier = text "a" then .ok tierA
  else if a.tier = text "b" then .ok (tierA ++ tierB)
  else if a.tier = text "all" then .ok scripts
  else .error a.tier

def noSuchScript (entry : Text) : Text := entry ++ text ": no such script in this tree"

def ambiguous (entry : Text) (prefixed : List Text) : Text :=
  entry ++ text ": ambiguous, matches " ++ (text ", ").intercalate prefixed

def resolveEntry (entry : Text) (scripts : List Text) : Except Text Text :=
  if entry ∈ scripts then .ok entry
  else
    match scripts.filter entry.isPrefixOf with
    | [s] => .ok s
    | [] => .error (noSuchScript entry)
    | prefixed => .error (ambiguous entry prefixed)

/-! ## The selection -/

/-- The loop over the entries. What has been seen is what has been selected. -/
def resolveAll (scripts : List Text) (entries : List Text) : List Text × List Text :=
  entries.foldl (fun acc entry =>
    match resolveEntry entry scripts with
    | .ok s => if s ∈ acc.1 then acc else (acc.1 ++ [s], acc.2)
    | .error e => (acc.1, acc.2 ++ [e])) ([], [])

def Args.passes (a : Args) (s : Text) : Bool := a.filter.isEmpty || a.filter.any (contains s)

/-- What is selected, and the complaints about entries. -/
def selection (names : List Text) (a : Args) : Except Text (List Text × List Text) :=
  let scripts := discoverScripts names
  (a.entries scripts).map fun entries =>
    let resolved := if a.tier = text "all" ∧ a.tests = [] then (scripts, []) else resolveAll scripts entries
    (sort (resolved.1.filter a.passes), resolved.2)

/-! ## What an entry stands for -/

/-- The script of that name, or the only one that begins with it. -/
def StandsFor (scripts : List Text) (entry s : Text) : Prop :=
  (entry ∈ scripts ∧ s = entry) ∨ (entry ∉ scripts ∧ scripts.filter entry.isPrefixOf = [s])

/-- An entry that stands for nothing. -/
def Unmatched (scripts : List Text) (entry : Text) : Prop :=
  entry ∉ scripts ∧ (scripts.filter entry.isPrefixOf).length ≠ 1

instance (scripts : List Text) : DecidablePred (Unmatched scripts) := fun _ => inferInstanceAs (Decidable
  (_ ∧ _))

/-- What is said about it. -/
def complaint (scripts : List Text) (entry : Text) : Text :=
  let prefixed := scripts.filter entry.isPrefixOf
  if prefixed = [] then noSuchScript entry else ambiguous entry prefixed

section

variable {scripts entries names : List Text} {entry s s' : Text}

theorem mem_sort {l : List Text} : s ∈ sort l ↔ s ∈ l := List.mem_mergeSort

theorem pairwise_sort (l : List Text) : (sort l).Pairwise (· ≤ ·) := by
  have htrans : ∀ a b c : Text, decide (a ≤ b) = true → decide (b ≤ c) = true → decide (a ≤ c) = true :=
    fun a b c hab hbc => decide_eq_true (le_trans (of_decide_eq_true hab) (of_decide_eq_true hbc))
  have htotal : ∀ a b : Text, (decide (a ≤ b) || decide (b ≤ a)) = true := by
    intro a b
    rw [Bool.or_eq_true, decide_eq_true_eq, decide_eq_true_eq]
    exact LinearOrder.le_total a b
  exact (List.pairwise_mergeSort htrans htotal l).imp of_decide_eq_true

theorem nodup_sort {l : List Text} : (sort l).Nodup ↔ l.Nodup := (List.mergeSort_perm _ _).nodup_iff

theorem mem_discoverScripts : s ∈ discoverScripts names ↔
    ∃ name ∈ names, isScript name = true ∧ Trimmed (text ".sh") name s := by
  have htrimmed : ∀ name, Trimmed (text ".sh") name (trimEndMatches (text ".sh") name) :=
    trimmed_trimEndMatches (by decide)
  rw [discoverScripts, mem_sort, List.mem_map]
  constructor
  · rintro ⟨name, hname, rfl⟩
    obtain ⟨hmem, hscript⟩ := List.mem_filter.mp hname
    exact ⟨name, hmem, hscript, htrimmed name⟩
  · rintro ⟨name, hmem, hscript, hs⟩
    exact ⟨name, List.mem_filter.mpr ⟨hmem, hscript⟩, (htrimmed name).unique hs⟩

theorem StandsFor.mem (h : StandsFor scripts entry s) : s ∈ scripts := by
  rcases h with ⟨hmem, rfl⟩ | ⟨-, honly⟩
  · exact hmem
  · exact (List.mem_filter.mp (honly ▸ List.mem_singleton_self s)).1

theorem StandsFor.unique (h : StandsFor scripts entry s) (h' : StandsFor scripts entry s') : s = s' := by
  rcases h with ⟨hmem, rfl⟩ | ⟨hnot, honly⟩
  · rcases h' with ⟨-, rfl⟩ | ⟨hnot, -⟩
    · rfl
    · exact absurd hmem hnot
  · rcases h' with ⟨hmem, -⟩ | ⟨-, honly'⟩
    · exact absurd hmem hnot
    · exact (List.cons.inj (honly.symm.trans honly')).1

theorem unmatched_iff (scripts : List Text) (entry : Text) :
    Unmatched scripts entry ↔ ∀ s, ¬ StandsFor scripts entry s := by
  rw [Unmatched]
  constructor
  · rintro ⟨hnot, hlen⟩ s (⟨hmem, -⟩ | ⟨-, honly⟩)
    · exact hnot hmem
    · exact hlen (by rw [honly, List.length_singleton])
  · intro h
    have hnot : entry ∉ scripts := fun hmem => h entry (.inl ⟨hmem, rfl⟩)
    refine ⟨hnot, fun hlen => ?_⟩
    obtain ⟨s, hs⟩ := List.length_eq_one_iff.mp hlen
    exact h s (.inr ⟨hnot, hs⟩)

/-- **`resolve_entry`** gives what the entry stands for, or complains. -/
theorem resolveEntry_spec (entry : Text) (scripts : List Text) :
    (∃ s, resolveEntry entry scripts = .ok s ∧ StandsFor scripts entry s) ∨
      (resolveEntry entry scripts = .error (complaint scripts entry) ∧ Unmatched scripts entry) := by
  rw [resolveEntry]
  by_cases hmem : entry ∈ scripts
  · rw [if_pos hmem]
    exact .inl ⟨entry, rfl, .inl ⟨hmem, rfl⟩⟩
  · rw [if_neg hmem]
    have hstands : ∀ s, scripts.filter entry.isPrefixOf = [s] → StandsFor scripts entry s :=
      fun s hs => .inr ⟨hmem, hs⟩
    simp only [complaint, Unmatched]
    revert hstands
    generalize scripts.filter entry.isPrefixOf = prefixed
    intro hstands
    cases prefixed with
    | nil => exact .inr ⟨rfl, hmem, by decide⟩
    | cons s rest =>
      cases rest with
      | nil => exact .inl ⟨s, rfl, hstands s rfl⟩
      | cons s' rest => exact .inr ⟨rfl, hmem, by simp⟩

/-! ## The loop -/

/-- What the loop has come to. -/
structure Resolved (scripts entries : List Text) (acc : List Text × List Text) : Prop where
  mem : ∀ s, s ∈ acc.1 ↔ ∃ entry ∈ entries, StandsFor scripts entry s
  nodup : scripts.Nodup → acc.1.Nodup
  complaints : acc.2 = (entries.filter (Unmatched scripts)).map (complaint scripts)

theorem exists_mem_concat {P : Text → Prop} :
    (∃ e ∈ entries ++ [entry], P e) ↔ (∃ e ∈ entries, P e) ∨ P entry := by
  simp [or_and_right, exists_or]

/-- Each entry is resolved or reported. -/
theorem resolved_resolveAll (scripts entries : List Text) :
    Resolved scripts entries (resolveAll scripts entries) := by
  induction entries using List.reverseRecOn with
  | nil => exact ⟨fun s => by simp [resolveAll], fun _ => List.nodup_nil, rfl⟩
  | append_singleton entries entry ih =>
    obtain ⟨hmem, hnodup, hcomplaints⟩ := ih
    rw [resolveAll, List.foldl_concat, ← resolveAll]
    rcases resolveEntry_spec entry scripts with ⟨s, hs, hstands⟩ | ⟨he, hunmatched⟩
    · have hmatched : ¬ Unmatched scripts entry := fun h => (unmatched_iff _ _).mp h s hstands
      have hthis : ∀ s', StandsFor scripts entry s' ↔ s' = s :=
        fun s' => ⟨fun h => h.unique hstands, fun h => h ▸ hstands⟩
      rw [hs]
      dsimp only
      split
      · rename_i hseen
        refine ⟨fun s' => ?_, hnodup, ?_⟩
        · rw [hmem, exists_mem_concat, hthis]
          refine ⟨.inl, fun h => h.elim id fun h => ?_⟩
          rw [h, ← hmem]
          exact hseen
        · rw [hcomplaints, List.filter_append, List.filter_singleton, decide_eq_false hmatched]
          simp
      · rename_i hnew
        refine ⟨fun s' => ?_, ?_, ?_⟩
        · rw [List.mem_append, hmem, List.mem_singleton, exists_mem_concat, hthis]
        · exact fun h => (hnodup h).append (List.nodup_singleton s) (List.disjoint_singleton.mpr hnew)
        · rw [hcomplaints, List.filter_append, List.filter_singleton, decide_eq_false hmatched]
          simp
    · rw [he]
      refine ⟨fun s' => ?_, hnodup, ?_⟩
      · rw [hmem, exists_mem_concat]
        exact ⟨.inl, fun h => h.elim id fun h => absurd h ((unmatched_iff _ _).mp hunmatched s')⟩
      · dsimp only
        rw [hcomplaints, List.filter_append, List.filter_singleton, decide_eq_true hunmatched]
        simp

/-- All scripts are what they are called. -/
theorem resolved_all (scripts : List Text) : Resolved scripts scripts (scripts, []) where
  mem s := ⟨fun hs => ⟨s, hs, .inl ⟨hs, rfl⟩⟩, fun ⟨_, _, hstands⟩ => hstands.mem⟩
  nodup := id
  complaints := by
    have hmatched : ∀ s ∈ scripts, decide (Unmatched scripts s) = false :=
      fun s hs => decide_eq_false fun h => h.1 hs
    rw [List.filter_eq_nil_iff.mpr fun s hs => Bool.eq_false_iff.mp (hmatched s hs), List.map_nil]

end

/-! ## What is selected -/

section

variable {names selected unmatched : List Text} {a : Args}

theorem Args.entries_all (a : Args) {scripts : List Text} (h : a.tier = text "all" ∧ a.tests = []) :
    a.entries scripts = .ok scripts := by
  rw [Args.entries, if_neg (not_not.mpr h.2), h.1, if_neg (by decide), if_neg (by decide), if_pos rfl]

/-- **The selection** has each script once, in order, that some entry stands for and that the filters let
through, and there is a complaint about each entry that stands for nothing. -/
theorem selection_spec (h : selection names a = .ok (selected, unmatched)) :
    ∃ entries, a.entries (discoverScripts names) = .ok entries ∧
      (∀ s, s ∈ selected ↔
        a.passes s = true ∧ ∃ entry ∈ entries, StandsFor (discoverScripts names) entry s) ∧
      unmatched =
        (entries.filter (Unmatched (discoverScripts names))).map (complaint (discoverScripts names)) ∧
      ((discoverScripts names).Nodup → selected.Pairwise (· < ·)) := by
  cases hentries : a.entries (discoverScripts names) with
  | error e =>
    rw [selection, hentries] at h
    cases h
  | ok entries =>
    have hresolved : Resolved (discoverScripts names) entries
        (if a.tier = text "all" ∧ a.tests = [] then (discoverScripts names, [])
          else resolveAll (discoverScripts names) entries) := by
      split
      · rename_i hall
        rw [a.entries_all hall] at hentries
        cases hentries
        exact resolved_all _
      · exact resolved_resolveAll _ _
    rw [selection, hentries] at h
    obtain ⟨rfl, rfl⟩ := Prod.mk.inj (Except.ok.inj h)
    refine ⟨entries, rfl, fun s => ?_, hresolved.complaints, fun hnodup => ?_⟩
    · rw [mem_sort, List.mem_filter, hresolved.mem, and_comm]
    · have hsorted := nodup_sort.mpr ((hresolved.nodup hnodup).filter a.passes)
      exact ((pairwise_sort _).and hsorted).imp fun hle => lt_of_le_of_ne hle.1 hle.2

def renamedTree : List Text := ["t0001-init.sh", "t1400-update-refs.sh", "test-lib.sh"].map text

/-- The number of a script is enough. -/
theorem selection_spec_renamed : ∃ selected unmatched,
    selection renamedTree { tests := ["t1400", "t9"].map text } = .ok (selected, unmatched) ∧
      text "t1400-update-refs" ∈ selected ∧ text "t9: no such script in this tree" ∈ unmatched := by
  have hscripts : discoverScripts renamedTree = ["t0001-init", "t1400-update-refs"].map text :=
    List.mergeSort_of_pairwise (by decide)
  obtain ⟨selected, unmatched, h⟩ : ∃ selected unmatched,
      selection renamedTree { tests := ["t1400", "t9"].map text } = .ok (selected, unmatched) :=
    ⟨_, _, rfl⟩
  obtain ⟨entries, hentries, hmem, hunmatched, -⟩ := selection_spec h
  rw [hscripts] at hentries hmem hunmatched
  cases hentries
  refine ⟨selected, unmatched, h, (hmem _).mpr ⟨rfl, text "t1400", by decide, .inr (by decide)⟩, ?_⟩
  rw [hunmatched]
  decide

end

end Fstest.Git
