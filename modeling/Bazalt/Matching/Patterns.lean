import Bazalt.Lib.Occurrence
import Bazalt.Model

/-!
# Pattern matching

Enabled patterns are put into groups, one for each content view and, for patterns
scoped to a service, one for each service and view.  A group compiles all its literals
into one automaton.  A record is scanned by the group of its view and by the group of its
service and view.

The automaton, the regular expressions and the hexadecimal decoder come from libraries;
`Engines` holds what is called of them.
-/

namespace Bazalt.Matching

open Lib

inductive PatternKind where
  | text
  | binary
  | regex
  deriving DecidableEq, Repr

inductive PatternAction where
  | find
  | ignore
  deriving DecidableEq, Repr

inductive PatternDirection where
  | both
  | input
  | output
  deriving DecidableEq, Repr

structure PatternRevision where
  id : Uuid
  revision : ℤ
  expression : String
  kind : PatternKind
  action : PatternAction := .find
  directionType : PatternDirection := .both
  service : Option String := none
  view : Option ContentView := none
  enabled : Bool := true
  deriving DecidableEq, Repr

structure MatchRecord where
  tsNs : ℕ
  patternId : Uuid
  patternRevision : ℤ
  flowId : Uuid
  contentId : Uuid
  view : ContentView
  action : PatternAction
  offsetStart : ℕ
  offsetEnd : ℕ
  historical : Bool
  deriving DecidableEq, Repr

structure Engines where
  hexDecode : String → Option Bytes
  /-- `AhoCorasick::new` succeeds. -/
  acNew : List Bytes → Bool
  acFindIter : List Bytes → Bytes → List Hit
  /-- `Regex::new` succeeds. -/
  regexNew : String → Bool
  /-- `RegexSet::new` succeeds. -/
  regexSetNew : List String → Bool
  regexIsMatch : String → Bytes → Bool
  regexFindIter : String → Bytes → List (ℕ × ℕ)

/-- The documented behaviour of the automaton with standard match semantics: matches do
not overlap, and each is one that ends first among those after the match before it. -/
def Engines.Standard (E : Engines) : Prop :=
  ∀ words, (∀ w ∈ words, w ≠ []) → ∀ text, ∃ next, (∀ lo, Earliest words text lo (next lo)) ∧
    E.acFindIter words text = hitsFrom next (text.length + 1) 0

def isAsciiWhitespace (c : Char) : Bool :=
  c == ' ' || c == '\t' || c == '\n' || c == '\x0c' || c == '\r'

def decodeBinary (E : Engines) (v : String) : Option Bytes :=
  let compact := String.ofList (v.toList.filter fun c ↦ !isAsciiWhitespace c && c != ':')
  (E.hexDecode compact).filter fun bytes ↦ !bytes.isEmpty

def viewsForPattern (p : PatternRevision) : List ContentView :=
  match p.view with
  | some view =>
      let compatible : Bool := match p.directionType with
        | .both => true
        | .input => view == .httpRequestHeaders || view == .httpRequestBody ||
            view == .httpRequestDecodedBody
        | .output => view == .httpResponseHeaders || view == .httpResponseBody ||
            view == .httpResponseDecodedBody
      if compatible then [view] else []
  | none =>
      match p.directionType with
      | .input => [.httpRequestHeaders, .httpRequestBody, .httpRequestDecodedBody]
      | .output => [.httpResponseHeaders, .httpResponseBody, .httpResponseDecodedBody]
      | .both => [.tcpRaw, .httpRequestDecodedBody, .httpResponseDecodedBody]

/-! ## Compiling -/

/-- The automaton is over `literals`, and there is none when the list is empty; the same
for the regular expressions. -/
structure CompiledGroup where
  literals : List Bytes := []
  literalMeta : List PatternRevision := []
  regexes : List String := []
  regexMeta : List PatternRevision := []
  maxLiteralLen : ℕ := 0
  deriving DecidableEq

namespace CompiledGroup

def addLiteral (g : CompiledGroup) (p : PatternRevision) (bytes : Bytes) : CompiledGroup :=
  { g with
    literals := g.literals ++ [bytes]
    literalMeta := g.literalMeta ++ [p]
    maxLiteralLen := max g.maxLiteralLen bytes.length }

def add (E : Engines) (g : CompiledGroup) (p : PatternRevision) : Option CompiledGroup :=
  match p.kind with
  | .text => some (g.addLiteral p p.expression.toUTF8.data.toList)
  | .binary => (decodeBinary E p.expression).map (g.addLiteral p)
  | .regex => some { g with
      regexes := g.regexes ++ [p.expression]
      regexMeta := g.regexMeta ++ [p] }

def compile (E : Engines) (patterns : List PatternRevision) : Option CompiledGroup :=
  (patterns.foldlM (add E) {}).filter fun g ↦
    (g.literals.isEmpty || E.acNew g.literals) &&
      (g.regexes.isEmpty || E.regexSetNew g.regexes) && g.regexes.all E.regexNew

end CompiledGroup

/-- A map from keys to the patterns pushed under them. -/
abbrev Buckets (κ : Type) := List (κ × List PatternRevision)

def Buckets.push {κ : Type} [DecidableEq κ] : Buckets κ → κ → PatternRevision → Buckets κ
  | [], k, p => [(k, [p])]
  | (k', ps) :: rest, k, p =>
      if k' = k then (k', ps ++ [p]) :: rest else (k', ps) :: push rest k p

/-- The service maps of the source are keyed by the service first and by the view then. -/
structure CompiledPatternSet where
  globalGroups : List (ContentView × CompiledGroup)
  serviceGroups : List ((String × ContentView) × CompiledGroup)
  ignoreRevisions : List (Uuid × ℤ)
  deriving DecidableEq

namespace CompiledPatternSet

structure Sorted where
  globalBuckets : Buckets ContentView := []
  serviceBuckets : Buckets (String × ContentView) := []

def Sorted.push (b : Sorted) (p : PatternRevision) (view : ContentView) : Sorted :=
  match p.service with
  | some service => { b with serviceBuckets := b.serviceBuckets.push (service, view) p }
  | none => { b with globalBuckets := b.globalBuckets.push view p }

def sort (patterns : List PatternRevision) : Sorted :=
  (patterns.filter PatternRevision.enabled).foldl
    (fun b p ↦ (viewsForPattern p).foldl (fun b view ↦ b.push p view) b) {}

def compileBuckets {κ : Type} (E : Engines) (b : Buckets κ) : Option (List (κ × CompiledGroup)) :=
  b.mapM fun (k, ps) ↦ (CompiledGroup.compile E ps).map (k, ·)

def compile (E : Engines) (patterns : List PatternRevision) : Option CompiledPatternSet := do
  let buckets := sort patterns
  let globalGroups ← compileBuckets E buckets.globalBuckets
  let serviceGroups ← compileBuckets E buckets.serviceBuckets
  return {
    globalGroups, serviceGroups
    ignoreRevisions := (patterns.filter fun p ↦ p.enabled && p.action == .ignore).map
      fun p ↦ (p.id, p.revision) }

def groupsFor (set : CompiledPatternSet) (record : ContentRecord) :
    Option CompiledGroup × Option CompiledGroup :=
  (set.globalGroups.lookup record.view,
    record.service.bind fun name ↦ set.serviceGroups.lookup (name, record.view))

def isInterested (set : CompiledPatternSet) (record : ContentRecord) : Bool :=
  (set.groupsFor record).1.isSome || (set.groupsFor record).2.isSome

end CompiledPatternSet

def contentViewBit (view : ContentView) : UInt64 :=
  (1 : UInt64) <<< match view with
    | .tcpRaw => (0 : UInt64)
    | .httpRequestHeaders => 1
    | .httpRequestBody => 2
    | .httpRequestDecodedBody => 3
    | .httpResponseHeaders => 4
    | .httpResponseBody => 5
    | .httpResponseDecodedBody => 6

def CompiledPatternSet.interestMask (set : CompiledPatternSet) : UInt64 :=
  (set.globalGroups.map Prod.fst ++ set.serviceGroups.map fun e ↦ e.1.2).foldl
    (fun mask view ↦ mask ||| contentViewBit view) 0

/-- How many bytes before a record the group looks at. -/
def CompiledGroup.requiredOverlap (g : CompiledGroup) (regexOverlap : ℕ) : ℕ :=
  if g.regexes.isEmpty then g.maxLiteralLen - 1 else max (g.maxLiteralLen - 1) regexOverlap

def CompiledPatternSet.requiredOverlap (set : CompiledPatternSet) (record : ContentRecord)
    (regexOverlap : ℕ) : ℕ :=
  match set.groupsFor record with
  | (some g, some g') => max (g.requiredOverlap regexOverlap) (g'.requiredOverlap regexOverlap)
  | (some g, none) => g.requiredOverlap regexOverlap
  | (none, some g) => g.requiredOverlap regexOverlap
  | (none, none) => 0

/-! ## Scanning -/

def matchRecord (p : PatternRevision) (record : ContentRecord) (start finish : ℕ)
    (historical : Bool) : MatchRecord where
  tsNs := record.tsNs
  patternId := p.id
  patternRevision := p.revision
  flowId := record.flowId
  contentId := record.id
  view := record.view
  action := p.action
  offsetStart := start
  offsetEnd := finish
  historical := historical

/-- The bounds of a scan.  `none` stands for `usize::MAX`, more than a scan can find. -/
structure Bounds where
  maxPerPattern : Option ℕ := none
  maxTotal : Option ℕ := none
  deriving DecidableEq, Repr

/-- The hits of a scan in progress and its `MatchLimiter`. -/
structure Scan where
  out : List MatchRecord := []
  perPattern : Uuid × ℤ → ℕ := fun _ ↦ 0
  candidates : ℕ := 0
  limited : Bool := false

namespace Scan

def exhausted (s : Scan) (b : Bounds) : Bool :=
  match b.maxTotal with
  | none => false
  | some n => decide (n ≤ s.candidates)

def markLimited (s : Scan) : Scan := { s with limited := true }

/-- `MatchLimiter::push`: a candidate counts even when its pattern has had its share. -/
def push (s : Scan) (b : Bounds) (p : PatternRevision) (hit : MatchRecord) : Scan :=
  if s.exhausted b then s.markLimited
  else
    let s := { s with candidates := s.candidates + 1 }
    let count := s.perPattern (p.id, p.revision)
    if ∃ n ∈ b.maxPerPattern, n ≤ count then s.markLimited
    else { s with
      perPattern := Function.update s.perPattern (p.id, p.revision) (count + 1)
      out := s.out ++ [hit] }

/-- A loop over matches.  It leaves the scan of the group when the limit is reached,
which the flag tells, and pushes what `keep` makes of a match. -/
def each {M : Type} (b : Bounds) (keep : M → Option (PatternRevision × MatchRecord)) :
    List M → Scan → Scan × Bool
  | [], s => (s, true)
  | m :: ms, s =>
      if s.exhausted b then (s.markLimited, false)
      else match keep m with
        | none => each b keep ms s
        | some (p, hit) => each b keep ms (s.push b p hit)

end Scan

namespace CompiledGroup

/-- Matches of the bridge over the start of the record count when they cross it. -/
def keepBridge (g : CompiledGroup) (record : ContentRecord) (historical : Bool) (base : ℕ)
    (m : Hit) : Option (PatternRevision × MatchRecord) :=
  (g.literalMeta[m.word]?).bind fun p ↦
    let start := base + m.start
    let finish := base + m.finish
    if start < record.streamOffset ∧ record.streamOffset < finish then
      some (p, matchRecord p record start finish historical)
    else none

def keepData (g : CompiledGroup) (record : ContentRecord) (historical : Bool) (m : Hit) :
    Option (PatternRevision × MatchRecord) :=
  (g.literalMeta[m.word]?).map fun p ↦
    (p, matchRecord p record (record.streamOffset + m.start) (record.streamOffset + m.finish)
      historical)

def scanBridge (E : Engines) (b : Bounds) (g : CompiledGroup) (record : ContentRecord)
    (tail : Bytes) (historical : Bool) (s : Scan) : Scan × Bool :=
  if !tail.isEmpty && decide (1 < g.maxLiteralLen) then
    let literalKeep := g.maxLiteralLen - 1
    let literalPrefix := tail.drop (tail.length - literalKeep)
    let bridge := literalPrefix ++ record.data.take (min literalKeep record.data.length)
    Scan.each b (g.keepBridge record historical (record.streamOffset - literalPrefix.length))
      (E.acFindIter g.literals bridge) s
  else (s, true)

def scanLiterals (E : Engines) (b : Bounds) (g : CompiledGroup) (record : ContentRecord)
    (tail : Bytes) (historical : Bool) (s : Scan) : Scan × Bool :=
  if g.literals.isEmpty then (s, true)
  else match g.scanBridge E b record tail historical s with
    | (s, false) => (s, false)
    | (s, true) => Scan.each b (g.keepData record historical)
        (E.acFindIter g.literals record.data) s

/-- With bytes before the record, a match that ends among them is skipped. -/
def keepRegex (record : ContentRecord) (historical : Bool) (base : ℕ) (boundary : Option ℕ)
    (p : PatternRevision) (m : ℕ × ℕ) : Option (PatternRevision × MatchRecord) :=
  if ∃ newDataStart ∈ boundary, base + m.2 ≤ newDataStart then none
  else some (p, matchRecord p record (base + m.1) (base + m.2) historical)

def scanRegexes (E : Engines) (b : Bounds) (record : ContentRecord) (historical : Bool)
    (combined : Bytes) (base : ℕ) (boundary : Option ℕ) :
    List (String × PatternRevision) → Scan → Scan
  | [], s => s
  | (re, p) :: rest, s =>
      if s.exhausted b then s.markLimited
      else match Scan.each b (keepRegex record historical base boundary p)
          (E.regexFindIter re combined) s with
        | (s, false) => s
        | (s, true) => scanRegexes E b record historical combined base boundary rest s

def scanInto (E : Engines) (b : Bounds) (g : CompiledGroup) (record : ContentRecord)
    (tail : Bytes) (historical : Bool) (s : Scan) : Scan :=
  match g.scanLiterals E b record tail historical s with
  | (s, false) => s
  | (s, true) =>
      if g.regexes.isEmpty then s
      else if s.exhausted b then s.markLimited
      else
        let combined := tail ++ record.data
        let matched := (g.regexes.zip g.regexMeta).filter fun (re, _) ↦ E.regexIsMatch re combined
        scanRegexes E b record historical combined (record.streamOffset - tail.length)
          (if tail.isEmpty then none else some record.streamOffset) matched s

end CompiledGroup

namespace CompiledPatternSet

def scanBounded (E : Engines) (set : CompiledPatternSet) (record : ContentRecord)
    (tail : Bytes) (historical : Bool) (b : Bounds) : Scan :=
  let s : Scan := match (set.groupsFor record).1 with
    | none => {}
    | some group => group.scanInto E b record tail historical {}
  match (set.groupsFor record).2 with
  | none => s
  | some group =>
      if s.exhausted b then s.markLimited else group.scanInto E b record tail historical s

theorem scanBounded_eq (E : Engines) (set : CompiledPatternSet) (record : ContentRecord)
    (tail : Bytes) (historical : Bool) (b : Bounds) :
    set.scanBounded E record tail historical b =
      let s := (set.groupsFor record).1.elim {} fun group ↦
        group.scanInto E b record tail historical {}
      (set.groupsFor record).2.elim s fun group ↦
        if s.exhausted b then s.markLimited else group.scanInto E b record tail historical s := by
  unfold scanBounded
  cases (set.groupsFor record).1 <;> cases (set.groupsFor record).2 <;> rfl

def scan (E : Engines) (set : CompiledPatternSet) (record : ContentRecord) (tail : Bytes)
    (historical : Bool) : List MatchRecord :=
  (set.scanBounded E record tail historical {}).out

end CompiledPatternSet

end Bazalt.Matching
