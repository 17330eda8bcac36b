import PropSchema.Proofs.Classify.Rooted
import PropSchema.Proofs.Project.Steps
/-!
The table of a whole project has no orphans. Without a cache a scan merges what is found in each
file, in each file every entry is reached from the props of some component, and merging keeps that.
-/
namespace PropSchema

namespace Scanner
variable {s : Scanner} {w : Workspace} {x : Extraction}

theorem fileOutcome_rooted {p : Path} (h : s.fileOutcome w p = .ok x) : x.Rooted := by
  rw [fileOutcome] at h
  cases htext : readSource w p with
  | error fault => rw [htext] at h; cases h
  | ok text =>
      rw [htext] at h
      change (Scan.ofText s.rules p.text text).outcome.mapError ScanFault.failed = .ok x at h
      cases houtcome : (Scan.ofText s.rules p.text text).outcome with
      | error fault => rw [houtcome] at h; cases h
      | ok found =>
          rw [houtcome] at h
          obtain rfl : found = x := Except.ok.inj h
          rw [Scan.ofText, Scan.ofSource] at houtcome
          split at houtcome
          · cases houtcome
          · exact Components.find_rooted (Prod.ext houtcome rfl)

theorem outcome_rooted {paths : List Path} (h : s.outcome w paths = .ok x) : x.Rooted := by
  have hfold : ∀ (files : List Path) (merged : Extraction), merged.Rooted →
      files.foldlM (fun merged p => do pure (merged.merge (← s.fileOutcome w p))) merged = .ok x →
      x.Rooted := by
    intro files
    induction files with
    | nil =>
        intro merged hmerged h
        cases h
        exact hmerged
    | cons p files ih =>
        intro merged hmerged h
        rw [List.foldlM_cons] at h
        cases hfile : s.fileOutcome w p with
        | error fault => rw [hfile] at h; cases h
        | ok found =>
            rw [hfile] at h
            exact ih _ (hmerged.merge (fileOutcome_rooted hfile)) h
  rw [outcome] at h
  cases hfiles : s.files w paths with
  | error fault => rw [hfiles] at h; cases h
  | ok files =>
      rw [hfiles] at h
      exact hfold files _ Extraction.rooted_empty h

end Scanner

namespace Extraction

/-- No entry is an orphan, neither in what a pass finds among declarations nor in what a scan
without a cache merges: following the indices of members from the props of the components, through
whatever prop types they stand in, one comes to every entry of the table. -/
theorem tables_have_no_orphans :
    (∀ (r : ComponentRules) (g : TypeGraph) declarations x c,
      (Components.find r g declarations).run .fresh = (.ok x, c) → x.Rooted) ∧
    ∀ (s : Scanner) (σ : Session) paths x, σ.cache = none → (s.scan paths).answer σ = .ok x →
      x.Rooted := by
  refine ⟨fun r g declarations x c h => Components.find_rooted h, fun s σ paths x hcache h => ?_⟩
  rw [s.answer_of_uncached paths hcache] at h
  exact Scanner.outcome_rooted h

/-- Two files, one with a record that is met again within an array in an anonymous record. -/
def forest : Workspace :=
  ⟨.directory [("src", .directory [
    ("Flag.tsx", .file
      "export class Flag extends React.Component<{on?:boolean}> {}".toUTF8.toList),
    ("Tree.tsx", .file
      "interface N{kids:{all:N[]}}\nexport class Tree extends React.Component<N> {}".toUTF8.toList)])],
    []⟩

def uncached : Session := ⟨forest, none, "", []⟩

def forestPaths : List Path := [.ofText "src/Flag.tsx", .ofText "src/Tree.tsx"]

def plainScanner : Scanner := ⟨.default, [], Registry.builtin, [], Settings.default.signature⟩

/-- The table of a looped record, and the merged table of two files. -/
theorem forest_has_no_orphans :
    (∃ x c, (Components.find Components.lenientRules Components.loopedGraph [15]).run .fresh =
      (.ok x, c) ∧ x.refs.length = 1 ∧ x.Rooted) ∧
    ∃ x, (plainScanner.scan forestPaths).answer uncached = .ok x ∧
      x.components = [⟨"Flag", 0⟩, ⟨"Tree", 1⟩] ∧ x.refs.length = 3 ∧ x.Rooted := by
  obtain ⟨hfind, hscan⟩ := tables_have_no_orphans
  have hloop : (Components.find Components.lenientRules Components.loopedGraph [15]).run .fresh =
      (.ok ⟨[⟨"Tree", 0⟩], Components.loopedTable⟩,
        ((Components.find Components.lenientRules Components.loopedGraph [15]).run .fresh).2) := by
    rfl
  refine ⟨⟨_, _, hloop, rfl, hfind _ _ _ _ _ hloop⟩, ?_⟩
  have hsketch : ((plainScanner.scan forestPaths).answer uncached).toOption.map
      (fun x => (x.components, x.refs.length)) = some ([⟨"Flag", 0⟩, ⟨"Tree", 1⟩], 3) := by
    decide +kernel
  cases hanswer : (plainScanner.scan forestPaths).answer uncached with
  | error fault => rw [hanswer] at hsketch; cases hsketch
  | ok x =>
      rw [hanswer] at hsketch
      obtain ⟨hcomponents, hrefs⟩ := Prod.mk.inj (Option.some.inj hsketch)
      exact ⟨x, rfl, hcomponents, hrefs, hscan _ _ _ _ rfl hanswer⟩

end Extraction

end PropSchema
