import Bazalt.Lib.Table
import Bazalt.Topology.Throttle

/-!
# The topology tracker

Every worker counts the packets of the sources that it sees in a map of its own, and now and
then merges the map into the shared one.  A source that the shared map has no room for is
counted in an overflow bucket.  A snapshot groups the sources by their network and cuts the
groups down to what a view can show.

The order in which a hash map gives its entries is not promised, so it is a parameter of
every walk over one.  The rates are floating-point numbers; their arithmetic is a parameter.
-/

namespace Bazalt.Topology

open Lib

def rateWindowSecs : ℕ := 5

/-- In nanoseconds. -/
def localFlushInterval : ℕ := 250000000

def maxLocalSourcesBeforeFlush : ℕ := 4096

/-- In nanoseconds. -/
def maxTopologyGcInterval : ℕ := 30000000000

def maxSnapshotGroups : ℕ := 256

def maxSnapshotSources : ℕ := 2048

/-- An order in which a hash map gives its entries. -/
structure Shuffle (α : Type) where
  run : List α → List α
  perm : ∀ l, (run l).Perm l

/-- The order of the model's own table. -/
def Shuffle.id {α : Type} : Shuffle α := ⟨fun l ↦ l, fun l ↦ List.Perm.refl l⟩

structure PendingCounters where
  packets : ℕ := 0
  bytes : ℕ := 0
  lastPacketTsNs : ℕ := 0
  deriving DecidableEq, Repr

/-- The counters after one more packet. -/
def PendingCounters.packet (c : PendingCounters) (tsNs wireLen : ℕ) : PendingCounters where
  packets := satAdd c.packets 1
  bytes := satAdd c.bytes wireLen
  lastPacketTsNs := max c.lastPacketTsNs tsNs

structure RateBucket where
  second : ℕ
  packets : ℕ
  bytes : ℕ
  deriving DecidableEq, Repr

structure SourceState where
  packetsTotal : ℕ
  bytesTotal : ℕ
  lastPacketTsNs : ℕ
  lastObserved : ℕ
  buckets : List RateBucket
  deriving DecidableEq, Repr

/-- `f64`: the quotient of two numbers, the sum of two rates and their total order. -/
structure Rates (R : Type) where
  zero : R
  add : R → R → R
  perSecond : ℕ → ℕ → R
  bitsPerSecond : ℕ → ℕ → R
  totalCmp : R → R → Ordering

namespace SourceState

def new (now : ℕ) : SourceState := ⟨0, 0, 0, now, []⟩

def trimBuckets (buckets : List RateBucket) (nowSecond : ℕ) : List RateBucket :=
  buckets.dropWhile fun b ↦ decide (rateWindowSecs ≤ nowSecond - b.second)

/-- The counters are added to the last bucket if it is of the same second. -/
def addBucket (buckets : List RateBucket) (c : PendingCounters) (second : ℕ) : List RateBucket :=
  match buckets.getLast? with
  | some b =>
      if b.second = second then
        buckets.dropLast ++
          [{ b with packets := satAdd b.packets c.packets, bytes := satAdd b.bytes c.bytes }]
      else buckets ++ [⟨second, c.packets, c.bytes⟩]
  | none => [⟨second, c.packets, c.bytes⟩]

def merge (s : SourceState) (c : PendingCounters) (second now : ℕ) : SourceState where
  packetsTotal := satAdd s.packetsTotal c.packets
  bytesTotal := satAdd s.bytesTotal c.bytes
  lastPacketTsNs := max s.lastPacketTsNs c.lastPacketTsNs
  lastObserved := now
  buckets := trimBuckets (addBucket s.buckets c second) second

/-- The rates over the buckets that are left; they are trimmed before. -/
def rates {R : Type} (fl : Rates R) (s : SourceState) (nowSecond : ℕ) : SourceState × R × R :=
  let buckets := trimBuckets s.buckets nowSecond
  let packets := (buckets.map RateBucket.packets).sum
  let bytes := (buckets.map RateBucket.bytes).sum
  let seconds := match buckets.head? with
    | some b => max 1 (min (satAdd (nowSecond - b.second) 1) rateWindowSecs)
    | none => 1
  ({ s with buckets }, fl.perSecond packets seconds, fl.bitsPerSecond bytes seconds)

end SourceState

structure TopologyState where
  sources : Table Ipv4Addr SourceState := ∅
  overflow : Option SourceState := none
  lastGc : Option ℕ := none

structure TopologyTracker where
  groupPrefixV4 : ℕ
  sourceTtl : ℕ
  maxSources : ℕ

def TopologyTracker.new (groupPrefixV4 sourceTtl maxSources : ℕ) : TopologyTracker :=
  ⟨groupPrefixV4, sourceTtl, max maxSources 1⟩

abbrev Pending := Table Ipv4Addr PendingCounters

namespace TopologyTracker

variable (t : TopologyTracker)

/-- `retain`: the sources that were seen within the time to live. -/
def retain (now : ℕ) (sources : Table Ipv4Addr SourceState) : Table Ipv4Addr SourceState where
  entries := sources.entries.filter fun e ↦ decide (now - e.2.lastObserved ≤ t.sourceTtl)
  nodupKeys := sources.nodupKeys.sublist List.filter_sublist

/-- The counters of one source go to its entry, to a new one or to the overflow bucket. -/
def mergeOne (second now : ℕ) (s : TopologyState) (e : Σ _ : Ipv4Addr, PendingCounters) :
    TopologyState :=
  match s.sources.lookup e.1 with
  | some source => { s with sources := s.sources.insert e.1 (source.merge e.2 second now) }
  | none =>
      if s.sources.size < t.maxSources then
        { s with sources := s.sources.insert e.1 ((SourceState.new now).merge e.2 second now) }
      else { s with overflow := some ((s.overflow.getD (.new now)).merge e.2 second now) }

/-- Expired sources are looked for now and then. -/
def collect (now : ℕ) (s : TopologyState) : TopologyState :=
  if s.lastGc.all fun lastGc ↦ decide (min t.sourceTtl maxTopologyGcInterval ≤ now - lastGc) then
    { s with sources := t.retain now s.sources, lastGc := some now }
  else s

/-- The local map is drained. -/
def mergeBatch (order : Shuffle (Σ _ : Ipv4Addr, PendingCounters)) (now second : ℕ)
    (s : TopologyState) (pending : Pending) : TopologyState :=
  if pending.entries.isEmpty then s
  else (order.run pending.entries).foldl (t.mergeOne second now) (t.collect now s)

end TopologyTracker

/-! ## Local observers -/

structure LocalTopologyObserver where
  pending : Pending := ∅
  lastFlush : ℕ

/-- What the clock shows when it is read in a call: for the interval, for the merge and after
the flush. -/
structure Readings where
  check : ℕ
  now : ℕ
  second : ℕ
  flushed : ℕ

namespace LocalTopologyObserver

variable (t : TopologyTracker) (order : Shuffle (Σ _ : Ipv4Addr, PendingCounters)) (clock : Readings)

def flush (s : TopologyState) (o : LocalTopologyObserver) :
    TopologyState × LocalTopologyObserver :=
  (t.mergeBatch order clock.now clock.second s o.pending, ⟨∅, clock.flushed⟩)

def count (o : LocalTopologyObserver) (tsNs wireLen : ℕ) (ip : Ipv4Addr) :
    LocalTopologyObserver :=
  { o with
    pending := o.pending.insert ip (((o.pending.lookup ip).getD {}).packet tsNs wireLen) }

def overdue (o : LocalTopologyObserver) (check : ℕ) : Bool :=
  decide (localFlushInterval ≤ check - o.lastFlush)

def observeIpv4Source (tsNs wireLen : ℕ) (ip : Ipv4Addr) (s : TopologyState)
    (o : LocalTopologyObserver) : TopologyState × LocalTopologyObserver :=
  let o := o.count tsNs wireLen ip
  if maxLocalSourcesBeforeFlush ≤ o.pending.size || o.overdue clock.check then
    o.flush t order clock s
  else (s, o)

def flushIfDue (s : TopologyState) (o : LocalTopologyObserver) :
    TopologyState × LocalTopologyObserver :=
  if !o.pending.entries.isEmpty && o.overdue clock.check then o.flush t order clock s else (s, o)

end LocalTopologyObserver

/-! ## Snapshots -/

structure TopologySourceSnapshot (R : Type) where
  ip : Ipv4Addr
  packetsTotal : ℕ
  bytesTotal : ℕ
  packetsPerSecond : R
  bitsPerSecond : R
  lastPacketTsNs : ℕ

structure TopologyGroupSnapshot (R : Type) where
  network : Ipv4Addr
  sourceCount : ℕ
  sourcesTruncated : Bool
  packetsTotal : ℕ
  bytesTotal : ℕ
  packetsPerSecond : R
  bitsPerSecond : R
  sources : List (TopologySourceSnapshot R)

/-- Without the time of the snapshot and the settings of the tracker. -/
structure TopologySnapshot (R : Type) where
  sourceCapacitySaturated : Bool
  sourceCount : ℕ
  untrackedPacketsTotal : ℕ
  untrackedBytesTotal : ℕ
  untrackedPacketsPerSecond : R
  untrackedBitsPerSecond : R
  groupCount : ℕ
  returnedGroupCount : ℕ
  returnedSourceCount : ℕ
  viewTruncated : Bool
  packetsTotal : ℕ
  bytesTotal : ℕ
  packetsPerSecond : R
  bitsPerSecond : R
  groups : List (TopologyGroupSnapshot R)

/-- The orders in which a snapshot walks over the sources and the groups. -/
structure SnapshotOrder (R : Type) where
  sources : Shuffle (Σ _ : Ipv4Addr, SourceState)
  groups : Shuffle (Σ _ : Ipv4Addr, TopologyGroupSnapshot R)

namespace TopologyTracker

variable (t : TopologyTracker) {R : Type} (fl : Rates R)

def sourceRow (nowSecond : ℕ) (e : Σ _ : Ipv4Addr, SourceState) : TopologySourceSnapshot R :=
  let r := e.2.rates fl nowSecond
  { ip := e.1
    packetsTotal := e.2.packetsTotal
    bytesTotal := e.2.bytesTotal
    packetsPerSecond := r.2.1
    bitsPerSecond := r.2.2
    lastPacketTsNs := e.2.lastPacketTsNs }

def newGroup (network : Ipv4Addr) : TopologyGroupSnapshot R :=
  ⟨network, 0, false, 0, 0, fl.zero, fl.zero, []⟩

def addToGroup (g : TopologyGroupSnapshot R) (row : TopologySourceSnapshot R) :
    TopologyGroupSnapshot R :=
  { g with
    sourceCount := satAdd g.sourceCount 1
    packetsTotal := satAdd g.packetsTotal row.packetsTotal
    bytesTotal := satAdd g.bytesTotal row.bytesTotal
    packetsPerSecond := fl.add g.packetsPerSecond row.packetsPerSecond
    bitsPerSecond := fl.add g.bitsPerSecond row.bitsPerSecond
    sources := g.sources ++ [row] }

def addRow (groups : Table Ipv4Addr (TopologyGroupSnapshot R)) (row : TopologySourceSnapshot R) :
    Table Ipv4Addr (TopologyGroupSnapshot R) :=
  let network := networkFor row.ip t.groupPrefixV4
  groups.insert network (addToGroup fl ((groups.lookup network).getD (newGroup fl network)) row)

/-- The first in the order of falling rates; `text` breaks ties. -/
def before {α : Type} (rate : α → R) (text : α → List Char) (a b : α) : Bool :=
  ((fl.totalCmp (rate b) (rate a)).then (compare (text a) (text b))) != .gt

def sortSources (g : TopologyGroupSnapshot R) : TopologyGroupSnapshot R :=
  { g with
    sources := g.sources.mergeSort
      (before fl TopologySourceSnapshot.bitsPerSecond fun s ↦ Ipv4Target.canonical ⟨s.ip, 32⟩) }

/-- The text of a group's network, with the length of the prefix. -/
def cidr (g : TopologyGroupSnapshot R) : List Char :=
  Ipv4Target.canonical ⟨g.network, 32⟩ ++ '/' :: Nat.toDigits 10 t.groupPrefixV4

/-- All groups with all their sources, in the order of the view. -/
def allGroups (orders : SnapshotOrder R) (rows : List (TopologySourceSnapshot R)) :
    List (TopologyGroupSnapshot R) :=
  (((orders.groups.run (rows.foldl (t.addRow fl) ∅).entries).map Sigma.snd).map
    (sortSources fl)).mergeSort (before fl TopologyGroupSnapshot.bitsPerSecond t.cidr)

/-- The groups while the budget lasts; the last one may lose sources. -/
def takeView : ℕ → List (TopologyGroupSnapshot R) → List (TopologyGroupSnapshot R)
  | _, [] => []
  | budget, g :: groups =>
      if budget = 0 then []
      else
        let g := if budget < g.sources.length then
          { g with sources := g.sources.take budget, sourcesTruncated := true } else g
        g :: takeView (budget - g.sources.length) groups

/-- The rows of a snapshot: one for each source that is left. -/
def rows (orders : SnapshotOrder R) (now nowSecond : ℕ) (s : TopologyState) :
    List (TopologySourceSnapshot R) :=
  (orders.sources.run (t.retain now s.sources).entries).map (sourceRow fl nowSecond)

/-- The state after a snapshot: expired sources are gone and the buckets are trimmed. -/
def afterSnapshot (now nowSecond : ℕ) (s : TopologyState) : TopologyState where
  sources :=
    { entries := (t.retain now s.sources).entries.map fun e ↦ ⟨e.1, (e.2.rates fl nowSecond).1⟩
      nodupKeys := by
        rw [List.NodupKeys, List.keys, List.map_map]
        exact (t.retain now s.sources).nodupKeys }
  overflow := s.overflow.map fun o ↦ (o.rates fl nowSecond).1
  lastGc := some now

def snapshot (orders : SnapshotOrder R) (now nowSecond : ℕ) (s : TopologyState) :
    TopologySnapshot R :=
  let rows := t.rows fl orders now nowSecond s
  let sourceCount := (t.retain now s.sources).size
  let untracked := match s.overflow with
    | some o => (o.packetsTotal, o.bytesTotal, (o.rates fl nowSecond).2)
    | none => (0, 0, fl.zero, fl.zero)
  let groups := t.allGroups fl orders rows
  let returned := takeView maxSnapshotSources (groups.take maxSnapshotGroups)
  let returnedSourceCount := (returned.map fun g ↦ g.sources.length).foldl satAdd 0
  { sourceCapacitySaturated := decide (t.maxSources ≤ sourceCount)
    sourceCount
    untrackedPacketsTotal := untracked.1
    untrackedBytesTotal := untracked.2.1
    untrackedPacketsPerSecond := untracked.2.2.1
    untrackedBitsPerSecond := untracked.2.2.2
    groupCount := groups.length
    returnedGroupCount := returned.length
    returnedSourceCount
    viewTruncated :=
      decide (returned.length < groups.length) || decide (returnedSourceCount < sourceCount)
    packetsTotal := rows.foldl (fun n row ↦ satAdd n row.packetsTotal) untracked.1
    bytesTotal := rows.foldl (fun n row ↦ satAdd n row.bytesTotal) untracked.2.1
    packetsPerSecond := rows.foldl (fun r row ↦ fl.add r row.packetsPerSecond) untracked.2.2.1
    bitsPerSecond := rows.foldl (fun r row ↦ fl.add r row.bitsPerSecond) untracked.2.2.2
    groups := returned }

end TopologyTracker

/-! ## Runs -/

/-- The shared state and the observers; a new observer is one that was not used before, and
a dropped one is one that is flushed for the last time. -/
abbrev Tracked (ι : Type) := Pool ι TopologyState LocalTopologyObserver

inductive TopologyEvent (ι : Type) where
  | observe (i : ι) (tsNs wireLen : ℕ) (ip : Ipv4Addr)
      (order : Shuffle (Σ _ : Ipv4Addr, PendingCounters)) (clock : Readings)
  | flush (i : ι) (order : Shuffle (Σ _ : Ipv4Addr, PendingCounters)) (clock : Readings)
  | flushIfDue (i : ι) (order : Shuffle (Σ _ : Ipv4Addr, PendingCounters)) (clock : Readings)
  | snapshot (now nowSecond : ℕ)

namespace Tracked

variable {ι : Type} [DecidableEq ι] (t : TopologyTracker) {R : Type} (fl : Rates R)

def step (w : Tracked ι) : TopologyEvent ι → Tracked ι
  | .observe i tsNs wireLen ip order clock =>
      Pool.step (fun s o ↦ o.observeIpv4Source t order clock tsNs wireLen ip s) w i
  | .flush i order clock => Pool.step (fun s o ↦ o.flush t order clock s) w i
  | .flushIfDue i order clock => Pool.step (fun s o ↦ o.flushIfDue t order clock s) w i
  | .snapshot now nowSecond => { w with shared := t.afterSnapshot fl now nowSecond w.shared }

def start (lastFlush : ι → ℕ) : Tracked ι := ⟨{}, fun i ↦ ⟨∅, lastFlush i⟩⟩

end Tracked

end Bazalt.Topology
