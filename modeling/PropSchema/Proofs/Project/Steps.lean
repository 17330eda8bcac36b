import PropSchema.Proofs.Project.Cache
/-!
What the steps of a scan ensure. Whatever a sound cache holds, the answer of a scan is the one that
the files and the rules of the scanner give.
-/
namespace PropSchema

namespace Scanning
variable {α β : Type}

/-- The answer of a step in a session. -/
def answer (m : Scanning α) (σ : Session) : Except ScanFault α := (m.run.run σ).1

/-- The session after a step, which may have failed. -/
def after (m : Scanning α) (σ : Session) : Session := (m.run.run σ).2

theorem run_bind (m : Scanning α) (k : α → Scanning β) (σ : Session) :
    (m >>= k).run.run σ = match m.answer σ with
      | .ok a => (k a).run.run (m.after σ)
      | .error fault => (.error fault, m.after σ) := by
  change (ExceptT.bindCont k (m.answer σ)).run (m.after σ) = _
  cases m.answer σ <;> rfl

/-- From every session of one kind, a step leads to an answer and a session of another kind. -/
def Ensures (P : Session → Prop) (m : Scanning α) (Q : Except ScanFault α → Session → Prop) :
    Prop :=
  ∀ σ, P σ → Q (m.answer σ) (m.after σ)

namespace Ensures
variable {P : Session → Prop} {Q : Except ScanFault α → Session → Prop}

theorem pure {a : α} (h : ∀ σ, P σ → Q (.ok a) σ) : Ensures P (Pure.pure a) Q := h

theorem throw {fault : ScanFault} (h : ∀ σ, P σ → Q (.error fault) σ) :
    Ensures P (MonadExcept.throw fault) Q := h

theorem bind {m : Scanning α} {k : α → Scanning β} {R : Except ScanFault β → Session → Prop}
    (hm : Ensures P m Q) (hok : ∀ a, Ensures (Q (.ok a)) (k a) R)
    (herror : ∀ fault σ, Q (.error fault) σ → R (.error fault) σ) : Ensures P (m >>= k) R := by
  intro σ hσ
  have hQ := hm σ hσ
  rw [answer, after, run_bind]
  cases hanswer : m.answer σ with
  | ok a =>
      rw [hanswer] at hQ
      exact hok a _ hQ
  | error fault =>
      rw [hanswer] at hQ
      exact herror fault (m.after σ) hQ

/-- A step may begin by looking at the session. -/
theorem get_bind {k : Session → Scanning α}
    (h : ∀ session, P session → Ensures (· = session) (k session) Q) :
    Ensures P (get >>= k) Q :=
  fun σ hσ => h σ hσ σ rfl

/-- What every step of a loop keeps, the loop keeps. -/
theorem foldlM {f : α → β → Scanning α} {bs : List β}
    (h : ∀ a, ∀ b ∈ bs, Ensures P (f a b) fun _ σ => P σ) (a : α) :
    Ensures P (bs.foldlM f a) fun _ σ => P σ := by
  induction bs generalizing a with
  | nil => exact .pure fun _ hσ => hσ
  | cons b bs ih =>
      rw [List.foldlM_cons]
      exact (h a b List.mem_cons_self).bind
        (fun a => ih (fun a c hc => h a c (List.mem_cons_of_mem b hc)) a) fun _ _ hσ => hσ

theorem mono {m : Scanning α} {P' : Session → Prop} {Q' : Except ScanFault α → Session → Prop}
    (h : Ensures P m Q) (hP : ∀ σ, P' σ → P σ) (hQ : ∀ r σ, Q r σ → Q' r σ) : Ensures P' m Q' :=
  fun σ hσ => hQ _ _ (h σ (hP σ hσ))

end Ensures

/-- A step gives an answer and stays among sessions of one kind. -/
def Yields (P : Session → Prop) (m : Scanning α) (r : Except ScanFault α) : Prop :=
  Ensures P m fun r' σ => r' = r ∧ P σ

namespace Yields
variable {P : Session → Prop} {m : Scanning α} {r : Except ScanFault α}

theorem pure (a : α) : Yields P (Pure.pure a) (.ok a) := fun _ hσ => ⟨rfl, hσ⟩

theorem ofExcept (r : Except ScanFault α) : Yields P (liftM r) r := fun _ hσ => ⟨rfl, hσ⟩

theorem modify {f : Session → Session} (h : ∀ σ, P σ → P (f σ)) :
    Yields P (modifyThe Session f : Scanning Unit) (.ok ()) :=
  fun σ hσ => ⟨rfl, h σ hσ⟩

/-- What follows a step whose answer is known. -/
theorem bind_ensures {k : α → Scanning β} {R : Except ScanFault β → Session → Prop}
    (hm : Yields P m r) (hok : ∀ a, r = .ok a → Ensures P (k a) R)
    (herror : ∀ fault σ, r = .error fault → P σ → R (.error fault) σ) : Ensures P (m >>= k) R :=
  Ensures.bind hm (fun a σ hσ => hok a hσ.1.symm σ hσ.2) fun fault σ hσ =>
    herror fault σ hσ.1.symm hσ.2

theorem bind {k : α → Scanning β} {g : α → Except ScanFault β} (hm : Yields P m r)
    (hk : ∀ a, r = .ok a → Yields P (k a) (g a)) : Yields P (m >>= k) (r >>= g) := by
  refine hm.bind_ensures (fun a ha => ?_) fun fault σ hfault hσ => ?_
  · rw [ha]
    exact hk a ha
  · rw [hfault]
    exact ⟨rfl, hσ⟩

theorem forM {f : β → Scanning PUnit} (h : ∀ b, Yields P (f b) (.ok ())) (bs : List β) :
    Yields P (bs.forM f) (.ok ()) := by
  induction bs with
  | nil => exact .pure ()
  | cons b bs ih => exact (h b).bind fun _ _ => ih

theorem foldlM {f : α → β → Scanning α} {g : α → β → Except ScanFault α} {bs : List β}
    (h : ∀ a, ∀ b ∈ bs, Yields P (f a b) (g a b)) (a : α) :
    Yields P (bs.foldlM f a) (bs.foldlM g a) := by
  induction bs generalizing a with
  | nil => exact .pure a
  | cons b bs ih =>
      rw [List.foldlM_cons, List.foldlM_cons]
      exact (h a b List.mem_cons_self).bind fun a _ =>
        ih (fun a c hc => h a c (List.mem_cons_of_mem b hc)) a

end Yields

end Scanning

namespace Scanner

/-- What a scanner finds in a file, with no cache in between. -/
def fileOutcome (s : Scanner) (w : Workspace) (p : Path) : Except ScanFault Extraction := do
  let text ← readSource w p
  (Scan.ofText s.rules p.text text).outcome.mapError .failed

/-- What a scanner finds in all files of some paths, with no cache in between. -/
def outcome (s : Scanner) (w : Workspace) (paths : List Path) : Except ScanFault Extraction := do
  let files ← s.files w paths
  files.foldlM (fun merged p => do pure (merged.merge (← s.fileOutcome w p))) Extraction.empty

/-- A file is among those of some paths. -/
def Visits (s : Scanner) (w : Workspace) (paths : List Path) (p : Path) : Prop :=
  ∃ files, s.files w paths = .ok files ∧ p ∈ files

/-- Sessions over a workspace, which may be reported to, and whose caches may store what is found in
files. -/
structure Accepts (s : Scanner) (w : Workspace) (P : Session → Prop) (visited : Path → Prop) :
    Prop where
  workspace : ∀ σ, P σ → σ.workspace = w
  report : ∀ r σ, P σ → P { σ with reports := r :: σ.reports }
  stored : ∀ p, visited p → ∀ text, readSource w p = .ok text → ∀ x,
    (Scan.ofText s.rules p.text text).outcome = .ok x → ∀ stamp σ, P σ →
      P { σ with cache := σ.cache.map fun cache =>
        cache.store stamp (s.key w p) s.signature (Sha256.ofText text) x }

/-- Such sessions whose caches answer for files as the texts of the files do. -/
structure Serves (s : Scanner) (w : Workspace) (P : Session → Prop) (visited : Path → Prop) : Prop
    extends s.Accepts w P visited where
  found : ∀ p, visited p → ∀ text, readSource w p = .ok text → ∀ σ, P σ → ∀ cache ∈ σ.cache, ∀ x,
    cache.find (s.key w p) s.signature (Sha256.ofText text) = .ok (some x) →
      (Scan.ofText s.rules p.text text).outcome = .ok x

/-- The cache of some session answers for a text. -/
def Remembers (s : Scanner) (w : Workspace) (P : Session → Prop) (p : Path) (text : String)
    (x : Extraction) : Prop :=
  ∃ σ, P σ ∧ ∃ cache ∈ σ.cache,
    cache.find (s.key w p) s.signature (Sha256.ofText text) = .ok (some x)

/-- How a scan ends: with an answer and its cache kept, or with a fault of keeping the cache, to
which an answer is lost. -/
def Ended (G : Except ScanFault Extraction → Prop) (R : Except ScanFault Unit → Session → Prop)
    (r : Except ScanFault Extraction) (σ : Session) : Prop :=
  G r ∧ R (.ok ()) σ ∨ ∃ fault x, r = .error fault ∧ G (.ok x) ∧ R (.error fault) σ

/-- The outcomes of files, merged. -/
def scanAll (s : Scanner) (files : List Path) : Scanning Extraction :=
  files.foldlM (fun merged p => do pure (merged.merge (← s.scanFile p))) Extraction.empty

namespace Accepts
open Scanning (Ensures Yields)
variable {s : Scanner} {w : Workspace} {P Q : Session → Prop} {visited : Path → Prop} {p : Path}
  {text : String} {paths : List Path}

/-- It is enough to know of files that can be read that they are visited. -/
theorem mono (visited' : Path → Prop) (h : s.Accepts w P visited)
    (hvisited : ∀ p, visited' p → ∀ text, readSource w p = .ok text → visited p) :
    s.Accepts w P visited' :=
  ⟨h.workspace, h.report, fun p hp text htext => h.stored p (hvisited p hp text htext) text htext⟩

theorem report_yields (h : s.Accepts w P visited) (r : Report) :
    Yields P (Scanning.report r) (.ok ()) :=
  Yields.modify (h.report r)

/-- The cache gives what it has found, or nothing. -/
theorem cached_of (h : s.Accepts w P visited) (p : Path) (text : String)
    {R : Except ScanFault (Option Extraction) → Session → Prop} (hnone : ∀ σ, P σ → R (.ok none) σ)
    (hsome : ∀ σ, P σ → ∀ cache x, σ.cache = some cache →
      cache.find (s.key w p) s.signature (Sha256.ofText text) = .ok (some x) → R (.ok (some x)) σ) :
    Ensures P (s.cached (s.key w p) (Sha256.ofText text)) R := by
  refine Ensures.get_bind fun session hsession => ?_
  cases hcache : session.cache with
  | none => exact Ensures.pure fun σ hσ => hnone σ (hσ ▸ hsession)
  | some cache =>
      dsimp only
      cases hfind : cache.find (s.key w p) s.signature (Sha256.ofText text) with
      | ok found =>
          refine Ensures.pure fun σ hσ => ?_
          subst hσ
          cases found with
          | none => exact hnone σ hsession
          | some x => exact hsome σ hsession cache x hcache hfind
      | error fault =>
          have hreport := h.report_yields (.unreadableEntry (s.key w p) fault)
          exact (Ensures.bind hreport (fun _ => Ensures.pure fun σ hσ => hnone σ hσ.2)
            fun _ σ hσ => nomatch hσ.1).mono (fun σ hσ => hσ ▸ hsession) fun _ _ h => h

theorem cached_ensures (h : s.Accepts w P visited) (p : Path) (text : String) :
    Ensures P (s.cached (s.key w p) (Sha256.ofText text)) fun r σ =>
      (∃ found, r = .ok found ∧ ∀ x ∈ found, s.Remembers w P p text x) ∧ P σ := by
  refine h.cached_of p text (fun σ hσ => ⟨⟨none, rfl, nofun⟩, hσ⟩) fun σ hσ cache x hcache hfind => ?_
  refine ⟨⟨some x, rfl, fun y hy => ?_⟩, hσ⟩
  cases hy
  exact ⟨σ, hσ, cache, hcache, hfind⟩

theorem extract_yields (h : s.Accepts w P visited) (p : Path) (text : String) :
    Yields P (s.extract p text) ((Scan.ofText s.rules p.text text).outcome.mapError .failed) := by
  have hnotes := Yields.forM (fun note => h.report_yields (.noted note))
    (Scan.ofText s.rules p.text text).notes
  refine Ensures.bind hnotes (fun _ => ?_) fun _ _ hσ => nomatch hσ.1
  cases (Scan.ofText s.rules p.text text).outcome with
  | ok x => exact Ensures.pure fun σ hσ => ⟨rfl, hσ.2⟩
  | error fault => exact Ensures.throw fun σ hσ => ⟨rfl, hσ.2⟩

/-- A file has the outcome that its text has, unless the cache answers. -/
theorem scanFile_ensures (h : s.Accepts w P visited) (hp : visited p) :
    Ensures P (s.scanFile p) fun r σ =>
      (r = s.fileOutcome w p ∨ ∃ text x, readSource w p = .ok text ∧ r = .ok x ∧
        s.Remembers w P p text x) ∧ P σ := by
  refine Ensures.get_bind fun session hsession => ?_
  refine Ensures.mono (P := P) ?_ (fun σ hσ => hσ ▸ hsession) fun _ _ h => h
  rw [h.workspace session hsession]
  refine (Yields.ofExcept (readSource w p)).bind_ensures (fun text htext => ?_)
    fun fault σ hfault hσ => ?_
  · have houtcome : s.fileOutcome w p =
        (Scan.ofText s.rules p.text text).outcome.mapError .failed := by
      rw [fileOutcome, htext]
      rfl
    refine Ensures.bind (h.cached_ensures p text) (fun found => ?_) ?_
    · cases found with
      | some x =>
          refine Ensures.bind (Q := fun r σ => (r = .ok () ∧ P σ) ∧ s.Remembers w P p text x) ?_
            (fun _ => ?_) ?_
          · rintro σ ⟨⟨found, hfound, hremembers⟩, hσ⟩
            obtain rfl := Except.ok.inj hfound
            exact ⟨h.report_yields _ σ hσ, hremembers x rfl⟩
          · exact Ensures.pure fun σ hσ => ⟨.inr ⟨text, x, htext, rfl, hσ.2⟩, hσ.1.2⟩
          · exact fun _ σ hσ => by cases hσ.1.1
      | none =>
          refine Ensures.mono (P := P) ?_ (fun σ hσ => hσ.2) fun _ _ h => h
          refine Ensures.bind (h.report_yields _) (fun _ => ?_) fun _ σ hσ => by cases hσ.1
          refine Ensures.mono (P := P) ?_ (fun σ hσ => hσ.2)
            fun r σ (hσ : r = s.fileOutcome w p ∧ P σ) => ⟨.inl hσ.1, hσ.2⟩
          have hextract := h.extract_yields p text
          rw [houtcome]
          cases hscan : (Scan.ofText s.rules p.text text).outcome with
          | error fault =>
              rw [hscan] at hextract
              refine Ensures.bind hextract (fun x σ hσ => by cases hσ.1) fun _ σ hσ => hσ
          | ok x =>
              rw [hscan] at hextract
              refine Yields.bind (g := fun x => .ok x) hextract fun y hy => ?_
              obtain rfl : x = y := Except.ok.inj hy
              exact Yields.bind (r := .ok ()) (g := fun _ => .ok x)
                (.modify (h.stored p hp text htext x hscan session.stamp)) fun _ _ => .pure x
    · rintro fault σ ⟨⟨found, hfound, -⟩, -⟩
      cases hfound
  · refine ⟨.inl ?_, hσ⟩
    rw [fileOutcome, hfault]
    rfl

/-- What holds of the answer for all files holds of the answer of a scan, or of what is lost to a
fault of keeping the cache after it. -/
theorem scan_ensures {G : Except ScanFault Extraction → Prop}
    {R : Except ScanFault Unit → Session → Prop} (h : s.Accepts w P visited)
    (hfiles : ∀ files, s.files w paths = .ok files →
      Ensures P (s.scanAll files) fun r σ => G r ∧ P σ)
    (hmissing : ∀ fault, s.files w paths = .error fault → G (.error fault))
    (hkeeps : ∀ σ, P σ → R (.ok ()) σ)
    (hreport : ∀ r σ, R (.ok ()) σ → R (.ok ()) { σ with reports := r :: σ.reports })
    (hcache : ∀ files, Ensures P (s.keepCache files) R) :
    Ensures P (s.scan paths) (Ended G R) := by
  refine Ensures.get_bind fun session hsession => ?_
  refine Ensures.mono (P := P) ?_ (fun σ hσ => hσ ▸ hsession) fun _ _ h => h
  rw [h.workspace session hsession]
  refine (Yields.ofExcept (s.files w paths)).bind_ensures (fun files hok => ?_)
    fun fault σ hfault hσ => .inl ⟨hmissing fault hfault, hkeeps σ hσ⟩
  refine Ensures.bind (hfiles files hok) (fun x => ?_)
    fun fault σ hσ => .inl ⟨hσ.1, hkeeps σ hσ.2⟩
  -- the answer is there before the cache is kept
  have hkeep : Ensures (fun σ => G (.ok x) ∧ P σ) (s.keepCache files)
      fun r σ => G (.ok x) ∧ R r σ := fun σ hσ => ⟨hσ.1, hcache files σ hσ.2⟩
  exact Ensures.bind hkeep (fun _ σ hσ => .inl ⟨hσ.1, hreport _ σ hσ.2⟩)
    fun fault σ hσ => .inr ⟨fault, x, rfl, hσ.1, hσ.2⟩

/-- Whatever a scan answers, it leaves sessions of one kind behind. -/
theorem scan_keeps (h : s.Accepts w P (s.Visits w paths)) (hkeeps : ∀ σ, P σ → Q σ)
    (hreport : ∀ r σ, Q σ → Q { σ with reports := r :: σ.reports })
    (hcache : ∀ files, Ensures P (s.keepCache files) fun _ σ => Q σ) :
    Ensures P (s.scan paths) fun _ σ => Q σ := by
  have hfold : ∀ files, s.files w paths = .ok files →
      Ensures P (s.scanAll files) fun _ σ => True ∧ P σ := by
    intro files hfiles
    refine (Ensures.foldlM (fun merged p hp => ?_) _).mono (fun _ hσ => hσ)
      fun _ _ hσ => ⟨trivial, hσ⟩
    have hfile := h.scanFile_ensures ⟨files, hfiles, hp⟩
    exact hfile.bind (fun x => .pure fun _ hσ => hσ.2) fun _ _ hσ => hσ.2
  refine (h.scan_ensures hfold (fun _ _ => trivial) hkeeps hreport hcache).mono (fun _ hσ => hσ) ?_
  rintro r σ (⟨-, hσ⟩ | ⟨fault, x, -, -, hσ⟩)
  · exact hσ
  · exact hσ

end Accepts

namespace Serves
open Scanning (Ensures Yields)
variable {s : Scanner} {w : Workspace} {P Q : Session → Prop} {visited : Path → Prop} {p : Path}
  {paths : List Path}

theorem mono (visited' : Path → Prop) (h : s.Serves w P visited)
    (hvisited : ∀ p, visited' p → ∀ text, readSource w p = .ok text → visited p) :
    s.Serves w P visited' :=
  ⟨h.toAccepts.mono visited' hvisited,
    fun p hp text htext => h.found p (hvisited p hp text htext) text htext⟩

/-- A file has the outcome that its text has, whether the cache answers or not. -/
theorem scanFile_yields (h : s.Serves w P visited) (hp : visited p) :
    Yields P (s.scanFile p) (s.fileOutcome w p) := by
  refine (h.toAccepts.scanFile_ensures hp).mono (fun _ hσ => hσ) fun r σ hσ => ⟨?_, hσ.2⟩
  rcases hσ.1 with hr | ⟨text, x, htext, rfl, τ, hτ, cache, hcache, hfind⟩
  · exact hr
  · rw [fileOutcome, htext]
    change _ = (Scan.ofText s.rules p.text text).outcome.mapError ScanFault.failed
    rw [h.found p hp text htext τ hτ cache hcache x hfind]
    rfl

/-- A scan has the outcome that the files have, unless its cache cannot be kept. -/
theorem scan_ensures {R : Except ScanFault Unit → Session → Prop}
    (h : s.Serves w P (s.Visits w paths)) (hkeeps : ∀ σ, P σ → R (.ok ()) σ)
    (hreport : ∀ r σ, R (.ok ()) σ → R (.ok ()) { σ with reports := r :: σ.reports })
    (hcache : ∀ files, Ensures P (s.keepCache files) R) :
    Ensures P (s.scan paths) (Ended (· = s.outcome w paths) R) := by
  refine h.toAccepts.scan_ensures (fun files hfiles => ?_) (fun fault hfault => ?_) hkeeps hreport
    hcache
  · rw [Scanner.outcome, hfiles]
    exact Yields.foldlM (fun merged p hp => (h.scanFile_yields ⟨files, hfiles, hp⟩).bind
      fun x _ => .pure (merged.merge x)) _
  · rw [Scanner.outcome, hfault]
    rfl

end Serves

/-- Where there is no cache, none answers. -/
theorem serves_uncached (s : Scanner) (w : Workspace) (visited : Path → Prop) :
    s.Serves w (fun τ => τ.workspace = w ∧ τ.cache = none) visited := by
  refine ⟨⟨fun _ hτ => hτ.1, fun _ _ hτ => hτ, fun p _ text _ x _ stamp τ hτ => ?_⟩,
    fun p _ text _ τ hτ cache hcache => ?_⟩
  · exact ⟨hτ.1, by rw [hτ.2]; rfl⟩
  · rw [hτ.2] at hcache
    nomatch hcache

/-- The keys that are kept after files were scanned. -/
def kept (s : Scanner) (w : Workspace) (files : List Path) (cache : ResultCache) : List String :=
  files.map (s.key w) ++ s.liveKeys w cache

/-- What keeping the cache comes to: nothing without one, and else it is pruned, and written if it
differs from its file. -/
theorem keepCache_ensures {s : Scanner} {P : Session → Prop}
    {R : Except ScanFault Unit → Session → Prop} (files : List Path)
    (hnone : ∀ σ, P σ → σ.cache = none → R (.ok ()) σ)
    (hkept : ∀ σ, P σ → ∀ cache, σ.cache = some cache → ∀ w' cache',
      (cache.prune (s.kept σ.workspace files cache)).persist σ.workspace = (.ok cache', w') →
        R (.ok ()) { σ with workspace := w', cache := some cache' })
    (hfails : ∀ σ, P σ → ∀ cache, σ.cache = some cache → ∀ w' fault,
      (cache.prune (s.kept σ.workspace files cache)).persist σ.workspace = (.error fault, w') →
        R (.error (.notWritten fault)) { σ with
          workspace := w', cache := some (cache.prune (s.kept σ.workspace files cache)) }) :
    Scanning.Ensures P (s.keepCache files) R := by
  refine Scanning.Ensures.get_bind fun session hsession => ?_
  cases hcache : session.cache with
  | none =>
      refine Scanning.Ensures.pure fun σ hσ => ?_
      exact hσ ▸ hnone session hsession hcache
  | some cache =>
      rcases hpersist : (cache.prune (s.kept session.workspace files cache)).persist
        session.workspace with ⟨outcome, w'⟩
      rw [kept] at hpersist
      dsimp only
      rw [hpersist]
      cases outcome with
      | ok cache' =>
          rintro σ rfl
          exact hkept σ hsession cache hcache w' cache' hpersist
      | error fault =>
          rintro σ rfl
          exact hfails σ hsession cache hcache w' fault hpersist

end Scanner

/-- Without a cache a scan has the outcome of its files. -/
theorem Scanner.answer_of_uncached (s : Scanner) (paths : List Path) {σ : Session}
    (h : σ.cache = none) : (s.scan paths).answer σ = s.outcome σ.workspace paths := by
  refine ((s.serves_uncached σ.workspace _).scan_ensures (R := fun r _ => r = .ok ())
    (fun _ _ => rfl) (fun _ _ _ => rfl) (fun files => ?_) σ ⟨rfl, h⟩).elim And.left ?_
  · refine Scanning.Ensures.get_bind fun session hsession => ?_
    rw [hsession.2]
    exact Scanning.Ensures.pure fun _ _ => rfl
  · rintro ⟨fault, x, -, -, hfault⟩
    nomatch hfault

/-- The cache of a session has no text. -/
def Session.LacksText (σ : Session) : Prop := ∃ cache ∈ σ.cache, cache.text? = none

namespace Course
open Scanning (Ensures Yields)

def path (c : Course) : Path := (Path.ofPlace c.root).join (.ofText c.cachePath)

/-- The place of the cache file, which no working directory moves. -/
def place (c : Course) : Place := c.path.resolve []

/-- If there is a cache file then a sound cache was written to it. -/
def Stored (c : Course) (w : Workspace) : Prop :=
  ∀ bytes, w.tree.find? c.place = some (.file bytes) →
    ∃ cache : ResultCache, cache.Sound c ∧
      ∃ text, cache.text? = some text ∧ bytes = text.toUTF8.toList

/-- A session over a workspace whose caches, on file and in memory, are sound. -/
structure Holds (c : Course) (w : Workspace) (σ : Session) : Prop where
  workspace : σ.workspace = w
  stored : c.Stored w
  cache : ∀ cache, σ.cache = some cache → cache.Sound c ∧ cache.path = some c.path

/-- A scanner with settings that take part. -/
structure Admits (c : Course) (s : Scanner) : Prop where
  made : Scanner.make c.root s.settings = .ok s
  cachePath : s.settings.cache.path = c.cachePath
  essence : s.settings.essenceText ∈ c.essences

variable {c : Course} {s : Scanner} {w : Workspace}

theorem resolve_path (c : Course) (w : Workspace) : w.resolve c.path = c.place := by
  have hroot : c.path.root ≠ "" := by
    rw [path, Path.join]
    split
    · exact show "/" ≠ "" by decide
    · next h => exact fun heq => h (by rw [heq]; rfl)
  have hempty : c.path.root.isEmpty = false := by
    rw [Bool.eq_false_iff, ne_eq, String.isEmpty_iff]
    exact hroot
  rw [Workspace.resolve, place, Path.resolve, Path.resolve, hempty]
  rfl

theorem Admits.fields (h : c.Admits s) : s.root = c.root ∧ s.signature = s.settings.signature ∧
    s.settings.rules = .ok s.rules := by
  have hmade := h.made
  rw [Scanner.make] at hmade
  cases hregistry : Registry.extend s.settings.known with
  | error e => rw [hregistry] at hmade; nomatch hmade
  | ok registry =>
      rw [hregistry] at hmade
      have hs : s = ⟨s.settings, c.root, registry, Exclusion.ofPatterns s.settings.excluded,
        s.settings.signature⟩ := (Except.ok.inj hmade).symm
      refine ⟨by rw [hs], by conv_lhs => rw [hs], ?_⟩
      rw [Settings.rules, hregistry, Scanner.rules]
      conv_rhs => rw [hs]
      rfl

/-- A sound cache serves every file that is read by its key. -/
theorem serves (apart : c.ToldApart) (hs : c.Admits s) {visited : Path → Prop}
    (hsource : ∀ p, visited p → ∀ text, Scanner.readSource w p = .ok text →
      text ∈ c.sources ∧ s.ReadsByKey w p) : s.Serves w (c.Holds w) visited := by
  obtain ⟨hroot, hsignature, hrules⟩ := hs.fields
  refine ⟨⟨fun _ hσ => hσ.workspace, fun _ _ hσ => ⟨hσ.workspace, hσ.stored, hσ.cache⟩,
    fun p hp text htext x houtcome stamp σ hσ => ?_⟩,
    fun p hp text htext σ hσ cache hcache x hfind => ?_⟩
  all_goals
    obtain ⟨hmem, hkey⟩ := hsource p hp text htext
    rw [Scanner.ReadsByKey, hroot] at hkey
  · have hfinds : c.Finds (s.key w p) s.signature (Sha256.ofText text) x := by
      rw [hsignature]
      exact .scan hrules hs.essence hmem hkey houtcome
    refine ⟨hσ.workspace, hσ.stored, fun cache hcache => ?_⟩
    obtain ⟨old, hold, rfl⟩ := Option.map_eq_some_iff.mp hcache
    obtain ⟨hsound, hpath⟩ := hσ.cache old hold
    exact ⟨hsound.store stamp hfinds, hpath⟩
  · have hfinds := (hσ.cache cache hcache).1.finds hfind
    rw [hsignature] at hfinds
    exact hfinds.outcome_eq apart hrules hs.essence hmem hkey

/-- The cache path can be written. -/
def Writable (c : Course) (w : Workspace) : Prop := ∀ bytes, ∃ w', w.save c.path bytes = .ok w'

theorem Stored.of_sameFiles {w' : Workspace} (h : c.Stored w) (same : w.SameFiles w') :
    c.Stored w' :=
  fun bytes hfile => h bytes ((same c.place bytes).mp hfile)

/-- Whether or not a sound cache is written, there is a sound cache on file. -/
theorem persist_stored {w' : Workspace} {cache : ResultCache}
    {r : Except PersistFault ResultCache} (hw : c.Stored w) (hcache : cache.Sound c)
    (hpath : cache.path = some c.path) (h : cache.persist w = (r, w')) :
    c.Stored w' ∧ ∀ cache', r = .ok cache' → cache'.Sound c ∧ cache'.path = some c.path := by
  have hends := cache.persisted w
  rw [h] at hends
  cases hends with
  | clean =>
      refine ⟨hw, ?_⟩
      rintro _ ⟨⟩
      exact ⟨hcache, hpath⟩
  | @written path text _ path_eq dirty text_eq saved =>
      obtain rfl := Option.some.inj (hpath.symm.trans path_eq)
      refine ⟨fun bytes hfile => ?_, ?_⟩
      · rcases Workspace.file_of_save saved hfile with ⟨-, rfl⟩ | hold
        · exact ⟨cache, hcache, text, text_eq, rfl⟩
        · exact hw bytes hold
      · rintro _ ⟨⟩
        exact ⟨⟨hcache.names, hcache.keeps⟩, hpath⟩
  | obstructed _ _ _ same => exact ⟨hw.of_sameFiles same, nofun⟩
  | unwritable _ _ same => exact ⟨hw.of_sameFiles same, nofun⟩

/-- Where its file can be written, a cache is written unless it has no text. -/
theorem lacksText_of_persist {w' : Workspace} {cache : ResultCache} {fault : PersistFault}
    (hwritable : c.Writable w) (hpath : cache.path = some c.path)
    (h : cache.persist w = (.error fault, w')) : fault = .unwritable ∧ cache.text? = none := by
  obtain ⟨cache', hok⟩ | ⟨herror, htext⟩ := ResultCache.persist_of_save hpath hwritable
  · rw [h] at hok
    nomatch hok
  · rw [h] at herror
    exact ⟨Except.error.inj herror, htext⟩

/-- The cache was kept, or it could not be written, which is for the want of a text where files can
be. -/
def Kept (c : Course) (w : Workspace) (r : Except ScanFault Unit) (σ : Session) : Prop :=
  ∀ fault, r = .error fault → c.Writable w → fault = .notWritten .unwritable ∧ σ.LacksText

theorem keepCache_ensures (files : List Path) : Ensures (c.Holds w) (s.keepCache files)
    fun r σ => c.Kept w r σ ∧ c.Holds σ.workspace σ := by
  refine Scanner.keepCache_ensures files (fun σ hσ _ => ⟨nofun, hσ.workspace.symm ▸ hσ⟩)
    (fun σ hσ cache hcache w' cache' hpersist => ?_) fun σ hσ cache hcache w' fault hpersist => ?_
  all_goals
    have hworkspace := hσ.workspace
    subst hworkspace
    obtain ⟨hsound, hpath⟩ := hσ.cache cache hcache
    obtain ⟨hstored, hkept⟩ := persist_stored hσ.stored (hsound.prune _) hpath hpersist
  · exact ⟨nofun, rfl, hstored, fun _ h => Option.some.inj h ▸ hkept _ rfl⟩
  · refine ⟨?_, rfl, hstored, fun _ h => Option.some.inj h ▸ ⟨hsound.prune _, hpath⟩⟩
    rintro _ ⟨⟩ hwritable
    have hpruned : (cache.prune (s.kept σ.workspace files cache)).path = some c.path := hpath
    obtain ⟨rfl, htext⟩ := lacksText_of_persist hwritable hpruned hpersist
    exact ⟨rfl, _, rfl, htext⟩

end Course

end PropSchema
