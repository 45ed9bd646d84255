import Bazalt.Lib.Run
import Bazalt.Lib.Trim
import Bazalt.Matching.Patterns

/-!
# Pattern updates

Patterns live in a database table of revisions; the newest revision of a pattern counts.
Every change inserts a revision and then rebuilds the compiled set: it reads the enabled
patterns, compiles them, and installs the result under a lock.  The lock orders the
installations, not the reads before them, so a set that was read earlier can replace one
that was read later.
-/

namespace Bazalt.Matching

open Lib

/-! ## The pattern table -/

/-- The rows of the table, in the order of their insertion. -/
abbrev PatternTable := List PatternRevision

namespace PatternTable

def latestPattern (rows : PatternTable) (id : Uuid) : Option PatternRevision :=
  rows.foldl (fun latest row ↦
    if row.id = id ∧ ∀ r ∈ latest, r.revision < row.revision then some row else latest) none

/-- One row for each id, in the order of the ids. -/
def listPatterns (rows : PatternTable) : List PatternRevision :=
  (((rows.map PatternRevision.id).dedup).insertionSort (· ≤ ·)).filterMap rows.latestPattern

/-- The latest revision is chosen first: a pattern whose newest revision is disabled is
not listed with an older one. -/
def listEnabledPatterns (rows : PatternTable) : List PatternRevision :=
  rows.listPatterns.filter PatternRevision.enabled

/-- The key of a row is its id with its revision. -/
def insertPatternRevision (rows : PatternTable) (row : PatternRevision) : Option PatternTable :=
  if rows.any fun r ↦ r.id = row.id ∧ r.revision = row.revision then none
  else some (rows ++ [row])

end PatternTable

/-! ## Requests -/

structure NewPattern where
  name : String
  expression : String
  kind : PatternKind
  action : PatternAction := .find
  directionType : PatternDirection := .both
  service : Option String := none
  view : Option ContentView := none
  deriving DecidableEq, Repr

inductive PatternError where
  | nameEmpty
  | expressionEmpty
  | invalidBinary
  | invalidRegex
  | notFound
  | duplicateKey
  | compile
  deriving DecidableEq, Repr

def validateNewPattern (E : Engines) (p : NewPattern) : Except PatternError Unit :=
  if p.name.toList.all isWhitespace then .error .nameEmpty
  else if p.expression.isEmpty then .error .expressionEmpty
  else match p.kind with
    | .binary => if (decodeBinary E p.expression).isSome then .ok () else .error .invalidBinary
    | .regex => if E.regexNew p.expression then .ok () else .error .invalidRegex
    | .text => .ok ()

def NewPattern.toRevision (p : NewPattern) (id : Uuid) (revision : ℤ) (enabled : Bool) :
    PatternRevision where
  id := id
  revision := revision
  expression := p.expression
  kind := p.kind
  action := p.action
  directionType := p.directionType
  service := p.service
  view := p.view
  enabled := enabled

/-- The calls of the manager; a new pattern comes with the id it will get. -/
inductive Request where
  | create (id : Uuid) (p : NewPattern)
  | update (id : Uuid) (p : NewPattern) (enabled : Bool)
  | setEnabled (id : Uuid) (enabled : Bool)
  | delete (id : Uuid)
  deriving DecidableEq, Repr

/-- The manager and its table.  `installedAt` counts the rows there were when the active
set was read. -/
structure PatternManager where
  rows : PatternTable
  active : CompiledPatternSet
  interestMask : UInt64
  generation : ℕ := 1
  installedAt : ℕ

/-- Where a call is.  The last three stages are those of `rebuild`; a set is kept with
the number of rows there were when its patterns were read. -/
inductive Stage where
  | called (request : Request)
  | inserting (row : PatternRevision)
  | listing
  | compiling (patterns : List PatternRevision) (readAt : ℕ)
  | installing (set : CompiledPatternSet) (readAt : ℕ)
  | returned (answer : Except PatternError Bool)

/-- What a call does up to its insertion: it looks the latest revision up. -/
def beginRequest (E : Engines) (rows : PatternTable) : Request → Stage
  | .create id p =>
      match validateNewPattern E p with
      | .error e => .returned (.error e)
      | .ok () => .inserting (p.toRevision id 1 true)
  | .update id p enabled =>
      match validateNewPattern E p with
      | .error e => .returned (.error e)
      | .ok () => .inserting (p.toRevision id
          ((rows.latestPattern id).elim 1 fun current ↦ current.revision + 1) enabled)
  | .setEnabled id enabled =>
      match rows.latestPattern id with
      | none => .returned (.error .notFound)
      | some current => .inserting { current with revision := current.revision + 1, enabled }
  | .delete id =>
      match rows.latestPattern id with
      | none => .returned (.ok false)
      | some current =>
          if current.enabled then
            .inserting { current with revision := current.revision + 1, enabled := false }
          else .returned (.ok false)

def PatternManager.installPrepared (m : PatternManager) (set : CompiledPatternSet) (readAt : ℕ) :
    PatternManager :=
  { m with
    active := set
    interestMask := set.interestMask
    generation := m.generation + 1
    installedAt := readAt }

def advance (E : Engines) (m : PatternManager) : Stage → PatternManager × Stage
  | .called request => (m, beginRequest E m.rows request)
  | .inserting row =>
      match m.rows.insertPatternRevision row with
      | none => (m, .returned (.error .duplicateKey))
      | some rows => ({ m with rows }, .listing)
  | .listing => (m, .compiling m.rows.listEnabledPatterns m.rows.length)
  | .compiling patterns readAt =>
      match CompiledPatternSet.compile E patterns with
      | none => (m, .returned (.error .compile))
      | some set => (m, .installing set readAt)
  | .installing set readAt => (m.installPrepared set readAt, .returned (.ok true))
  | .returned answer => (m, .returned answer)

section

variable {ι : Type} [DecidableEq ι]

abbrev Requests (ι : Type) := Pool ι PatternManager Stage

def Requests.start (m : PatternManager) (requests : ι → Request) : Requests ι :=
  ⟨m, fun i ↦ .called (requests i)⟩

/-- The active set and the mask are those of the enabled patterns in the table. -/
def PatternManager.Current (E : Engines) (m : PatternManager) : Prop :=
  CompiledPatternSet.compile E m.rows.listEnabledPatterns = some m.active ∧
    m.interestMask = m.active.interestMask

/-- `PatternManager::load`. -/
def PatternManager.Loaded (E : Engines) (m : PatternManager) : Prop :=
  m.Current E ∧ m.installedAt = m.rows.length

/-- When all calls have succeeded, the installed set is the current one. -/
def NoLostPatternUpdate (E : Engines) (m : PatternManager) (requests : ι → Request)
    (schedule : List ι) : Prop :=
  (∀ i, ∃ answer, (runFrom (Pool.step (advance E)) (Requests.start m requests) schedule).locals i =
    .returned (.ok answer)) →
  (runFrom (Pool.step (advance E)) (Requests.start m requests) schedule).shared.Current E

/-- A set that is installed was not read before the one it replaces. -/
def InstallsInOrder (p : Requests ι) (i : ι) : Prop :=
  ∀ set readAt, p.locals i = .installing set readAt → p.shared.installedAt ≤ readAt

instance (p : Requests ι) (i : ι) : Decidable (InstallsInOrder p i) :=
  match h : p.locals i with
  | .installing _ readAt =>
      decidable_of_iff (p.shared.installedAt ≤ readAt) (by simp [InstallsInOrder, h])
  | .called _ => .isTrue (by simp [InstallsInOrder, h])
  | .inserting _ => .isTrue (by simp [InstallsInOrder, h])
  | .listing => .isTrue (by simp [InstallsInOrder, h])
  | .compiling _ _ => .isTrue (by simp [InstallsInOrder, h])
  | .returned _ => .isTrue (by simp [InstallsInOrder, h])

/-! ## Rebuilds in the order of their reads -/

/-- A rebuild under way holds what the table gave it. -/
def Stage.Read (E : Engines) (rows : PatternTable) : Stage → Prop
  | .compiling patterns readAt =>
      readAt ≤ rows.length ∧ patterns = PatternTable.listEnabledPatterns (rows.take readAt)
  | .installing set readAt => readAt ≤ rows.length ∧
      CompiledPatternSet.compile E (PatternTable.listEnabledPatterns (rows.take readAt)) = some set
  | _ => True

/-- A call that still has to install the newest rows, or has failed. -/
def Stage.Owes (n : ℕ) : Stage → Prop
  | .listing => True
  | .compiling _ readAt => readAt = n
  | .installing _ readAt => readAt = n
  | .returned (.error _) => True
  | _ => False

structure Consistent (E : Engines) (p : Requests ι) : Prop where
  read : ∀ i, (p.locals i).Read E p.shared.rows
  installed : p.shared.installedAt ≤ p.shared.rows.length ∧
    CompiledPatternSet.compile E
      (PatternTable.listEnabledPatterns (p.shared.rows.take p.shared.installedAt)) =
        some p.shared.active
  mask : p.shared.interestMask = p.shared.active.interestMask
  owed : p.shared.installedAt = p.shared.rows.length ∨
    ∃ i, (p.locals i).Owes p.shared.rows.length

theorem Stage.Read.grow {E : Engines} {rows : PatternTable} {stage : Stage}
    (h : stage.Read E rows) (row : PatternRevision) : stage.Read E (rows ++ [row]) := by
  cases stage with
  | compiling patterns readAt =>
      obtain ⟨hle, hpatterns⟩ := h
      refine ⟨by rw [List.length_append]; omega, ?_⟩
      rwa [List.take_append_of_le_length hle]
  | installing set readAt =>
      obtain ⟨hle, hset⟩ := h
      refine ⟨by rw [List.length_append]; omega, ?_⟩
      rwa [List.take_append_of_le_length hle]
  | _ => trivial

variable {E : Engines} {p : Requests ι}

/-- A step that leaves the manager as it is and keeps what its call owes. -/
theorem Consistent.quiet (h : Consistent E p) {i : ι}
    (hshared : (advance E p.shared (p.locals i)).1 = p.shared)
    (hread : (advance E p.shared (p.locals i)).2.Read E p.shared.rows)
    (howes : (p.locals i).Owes p.shared.rows.length →
      (advance E p.shared (p.locals i)).2.Owes p.shared.rows.length) :
    Consistent E (p.step (advance E) i) where
  read := by
    rw [Pool.shared_step, hshared]
    exact Pool.forall_locals_step (Q := fun _ (l : Stage) ↦ l.Read E p.shared.rows) hread
      fun j _ ↦ h.read j
  installed := by
    rw [Pool.shared_step, hshared]
    exact h.installed
  mask := by
    rw [Pool.shared_step, hshared]
    exact h.mask
  owed := by
    rw [Pool.shared_step, hshared]
    rcases h.owed with hdone | ⟨j, hj⟩
    · exact .inl hdone
    · by_cases hij : j = i
      · subst hij
        exact .inr ⟨j, by rw [Pool.locals_step_self]; exact howes hj⟩
      · exact .inr ⟨j, by rw [Pool.locals_step_of_ne hij]; exact hj⟩

theorem beginRequest_cases (E : Engines) (rows : PatternTable) (request : Request) :
    (∃ answer, beginRequest E rows request = .returned answer) ∨
      ∃ row, beginRequest E rows request = .inserting row := by
  cases request with
  | create id q =>
      cases hv : validateNewPattern E q with
      | error e => exact .inl ⟨_, by rw [beginRequest, hv]⟩
      | ok u => exact .inr ⟨_, by rw [beginRequest, hv]⟩
  | update id q enabled =>
      cases hv : validateNewPattern E q with
      | error e => exact .inl ⟨_, by rw [beginRequest, hv]⟩
      | ok u => exact .inr ⟨_, by rw [beginRequest, hv]⟩
  | setEnabled id enabled =>
      cases hl : rows.latestPattern id with
      | none => exact .inl ⟨_, by rw [beginRequest, hl]⟩
      | some current => exact .inr ⟨_, by rw [beginRequest, hl]⟩
  | delete id =>
      cases hl : rows.latestPattern id with
      | none => exact .inl ⟨_, by rw [beginRequest, hl]⟩
      | some current =>
          cases he : current.enabled with
          | true =>
              refine .inr ⟨{ current with revision := current.revision + 1, enabled := false }, ?_⟩
              simp [beginRequest, hl, he]
          | false =>
              refine .inl ⟨.ok false, ?_⟩
              simp [beginRequest, hl, he]

/-- The step lemma. -/
theorem Consistent.step (h : Consistent E p) (i : ι) (horder : InstallsInOrder p i) :
    Consistent E (p.step (advance E) i) := by
  have hi := h.read i
  cases hstage : p.locals i with
  | called request =>
      refine h.quiet (by rw [hstage]; rfl) ?_ fun howes ↦ by simp [hstage, Stage.Owes] at howes
      rw [hstage]
      rcases beginRequest_cases E p.shared.rows request with ⟨answer, ha⟩ | ⟨row, hr⟩
      · simp [advance, ha, Stage.Read]
      · simp [advance, hr, Stage.Read]
  | inserting row =>
      cases hins : p.shared.rows.insertPatternRevision row with
      | none =>
          refine h.quiet (by simp [hstage, advance, hins]) ?_ fun howes ↦ by
            simp [hstage, Stage.Owes] at howes
          simp [hstage, advance, hins, Stage.Read]
      | some rows =>
          have hrows : rows = p.shared.rows ++ [row] := by
            unfold PatternTable.insertPatternRevision at hins
            split_ifs at hins
            exact (Option.some.inj hins).symm
          obtain ⟨hle, hactive⟩ := h.installed
          refine ⟨fun j ↦ ?_, ⟨?_, ?_⟩, ?_, .inr ⟨i, ?_⟩⟩
          · refine Pool.forall_locals_step (Q := fun _ (l : Stage) ↦ l.Read E _) ?_ (fun k _ ↦ ?_) j
            · simp [hstage, advance, hins, Stage.Read]
            · simpa [hstage, advance, hins, hrows] using (h.read k).grow row
          · simp only [Pool.shared_step, hstage, advance, hins, hrows, List.length_append]
            omega
          · simpa [hstage, advance, hins, hrows, List.take_append_of_le_length hle] using hactive
          · simpa [hstage, advance, hins] using h.mask
          · simp [hstage, advance, hins, Stage.Owes]
  | listing =>
      refine h.quiet (by rw [hstage]; rfl) ?_ fun _ ↦ by simp [hstage, advance, Stage.Owes]
      simp [hstage, advance, Stage.Read]
  | compiling patterns readAt =>
      rw [hstage] at hi
      obtain ⟨hle, rfl⟩ := hi
      cases hc : CompiledPatternSet.compile E
          (PatternTable.listEnabledPatterns (p.shared.rows.take readAt)) with
      | none =>
          refine h.quiet (by simp [hstage, advance, hc]) ?_ fun _ ↦ by
            simp [hstage, advance, hc, Stage.Owes]
          simp [hstage, advance, hc, Stage.Read]
      | some set =>
          refine h.quiet (by simp [hstage, advance, hc]) ?_ fun howes ↦ by
            simpa [hstage, advance, hc, Stage.Owes] using howes
          simpa [hstage, advance, hc, Stage.Read] using hle
  | installing set readAt =>
      rw [hstage] at hi
      obtain ⟨hle, hset⟩ := hi
      have hlater := horder set readAt hstage
      refine ⟨fun j ↦ ?_, ?_, ?_, ?_⟩
      · refine Pool.forall_locals_step (Q := fun _ (l : Stage) ↦ l.Read E _) ?_ (fun k _ ↦ ?_) j
        · simp [hstage, advance, Stage.Read]
        · simpa [hstage, advance, PatternManager.installPrepared] using h.read k
      · simpa [hstage, advance, PatternManager.installPrepared] using ⟨hle, hset⟩
      · simp [hstage, advance, PatternManager.installPrepared]
      · simp only [Pool.shared_step, hstage, advance, PatternManager.installPrepared]
        -- the newest rows are installed now, were installed before, or are owed by another
        rcases h.owed with hdone | ⟨j, hj⟩
        · left
          omega
        · by_cases hij : j = i
          · subst hij
            left
            rwa [hstage] at hj
          · exact .inr ⟨j, by rw [Pool.locals_step_of_ne hij]; exact hj⟩
  | returned answer =>
      refine h.quiet (by rw [hstage]; rfl) ?_ fun howes ↦ by simpa [hstage, advance] using howes
      simp [hstage, advance, Stage.Read]

theorem noLostPatternUpdate_of_installsInOrder (E : Engines) (m : PatternManager)
    (hload : m.Loaded E) (requests : ι → Request) (schedule : List ι)
    (horder : Along (Pool.step (advance E)) InstallsInOrder (Requests.start m requests) schedule) :
    NoLostPatternUpdate E m requests schedule := by
  obtain ⟨⟨hactive, hmask⟩, hall⟩ := hload
  have hstart : Consistent E (Requests.start m requests) := by
    refine ⟨fun _ ↦ trivial, ⟨hall.le, ?_⟩, hmask, .inl hall⟩
    simpa [Requests.start, hall] using hactive
  have hend := invariant_runFrom (I := Consistent E) (fun q i hq hi ↦ hq.step i hi) hstart horder
  intro hreturned
  refine ⟨?_, hend.mask⟩
  rcases hend.owed with hdone | ⟨i, hi⟩
  · have hset := hend.installed.2
    rwa [hdone, List.take_length] at hset
  · obtain ⟨answer, ha⟩ := hreturned i
    rw [ha] at hi
    exact hi.elim

end

/-! ## Runs -/

/-- Engines for text patterns alone. -/
def textEngines : Engines where
  hexDecode := fun _ ↦ none
  acNew := fun _ ↦ true
  acFindIter := fun _ _ ↦ []
  regexNew := fun _ ↦ false
  regexSetNew := fun _ ↦ false
  regexIsMatch := fun _ _ ↦ false
  regexFindIter := fun _ _ ↦ []

def emptyManager : PatternManager where
  rows := []
  active := ⟨[], [], []⟩
  interestMask := 0
  installedAt := 0

theorem loaded_emptyManager : emptyManager.Loaded textEngines :=
  ⟨⟨rfl, rfl⟩, rfl⟩

/-- Two patterns are created at the same time. -/
def twoCreates : Fin 2 → Request
  | 0 => .create 1 { name := "flag", expression := "ab", kind := .text }
  | 1 => .create 2 { name := "token", expression := "cd", kind := .text }

/-- The second call reads the table before the first installs its set, and installs later. -/
def orderlyRebuilds : List (Fin 2) := [0, 0, 0, 0, 1, 1, 1, 1, 0, 1]

theorem noLostPatternUpdate_orderlyRebuilds :
    (runFrom (Pool.step (advance textEngines)) (Requests.start emptyManager twoCreates)
        orderlyRebuilds).shared.generation = 3 ∧
      NoLostPatternUpdate textEngines emptyManager twoCreates orderlyRebuilds := by
  refine ⟨by decide +kernel, ?_⟩
  exact noLostPatternUpdate_of_installsInOrder textEngines emptyManager loaded_emptyManager
    twoCreates orderlyRebuilds (by decide +kernel)

/-- The first call installs what it read before the second call inserted its row. -/
def racingRebuilds : List (Fin 2) := [0, 0, 0, 0, 1, 1, 1, 1, 1, 0]

theorem not_noLostPatternUpdate_racingRebuilds :
    ¬ NoLostPatternUpdate textEngines emptyManager twoCreates racingRebuilds := by
  intro h
  have hcurrent := (h (by
    intro i
    fin_cases i <;> exact ⟨true, rfl⟩)).1
  revert hcurrent
  decide +kernel

end Bazalt.Matching
