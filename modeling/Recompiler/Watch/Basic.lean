import Recompiler.Arena.Link

/-!
# Page watches

A watch indexes the blocks compiled from one guest page.  Blocks are listed,
oldest first, by the bucket their source starts in; for every bucket the watch
counts the blocks whose source touches it.  The counts tell at a glance that a
write meets no code; otherwise the lists are searched downward from the last
bucket written, until the counts say that nothing is left to find.

There is a fixed number of watches, each in use for one page or free.  Those in
use are kept in the order in which they were put up.
-/

namespace Recompiler

/-- The watch of one guest page. -/
structure Watch where
  page : Nat := 0
  /-- Blocks by the bucket their source starts in. -/
  buckets : Vector (List BlockId) bucketCount := Vector.replicate bucketCount []
  /-- How many indexed blocks touch each bucket. -/
  coverage : Vector Nat bucketCount := Vector.replicate bucketCount 0
  /-- Changing writes to each byte that met code; absent while there are
  none. -/
  changes : Option (Vector UInt8 pageSize) := none
  /-- The number of indexed blocks. -/
  active : Nat := 0
  /-- Changing writes left before an idle watch is released. -/
  countdown : Nat
  /-- Where the countdown starts. -/
  delay : Nat
  deriving DecidableEq, Repr

namespace Watch

def fresh (page delay : Nat) : Watch := { page, delay, countdown := delay }

def mapCoverage (w : Watch) (first last : Bucket) (f : Nat → Nat) : Watch :=
  { w with
    coverage := (List.range' first.val (last.val + 1 - first.val)).foldl
      (fun c i => c.setIfInBounds i (f (c.getD i 0))) w.coverage }

def coverageBetween (w : Watch) (first last : Bucket) : Nat :=
  (List.range' first.val (last.val + 1 - first.val)).foldr
    (fun i n => w.coverage.getD i 0 + n) 0

/-- Changing writes seen at a byte. -/
def changesAt (w : Watch) (offset : Offset) : UInt8 :=
  w.changes.elim 0 fun counts => counts[offset.val]

def blocks (w : Watch) : List BlockId := w.buckets.toList.flatten

/-- Lists a block whose source is the bytes from `first` to `last`. -/
def index (w : Watch) (id : BlockId) (first last : Offset) : Watch :=
  let start := bucketOf first
  let w := w.mapCoverage start (bucketOf last) (· + 1)
  { w with
    buckets := w.buckets.set start.val (w.buckets[start.val] ++ [id])
    active := w.active + 1 }

def discount (w : Watch) (source : Source) : Watch :=
  let w := w.mapCoverage source.buckets.1 source.buckets.2 (· - 1)
  { w with active := w.active - 1, countdown := w.delay }

/-- Takes a block out of the index; `none` if it is not listed where its
source starts. -/
def remove? (w : Watch) (id : BlockId) (source : Source) : Option Watch :=
  let start := source.buckets.1
  if id ∈ w.buckets[start.val] then
    some ({ w with
      buckets := w.buckets.set start.val (w.buckets[start.val].erase id) }.discount source)
  else none

def drain (w : Watch) : Watch :=
  { w with
    buckets := Vector.replicate bucketCount []
    coverage := Vector.replicate bucketCount 0
    active := 0 }

/-- The block compiled last whose source starts at a byte. -/
def find? (w : Watch) (a : Arena) (start : Offset) : Option BlockId :=
  w.buckets[(bucketOf start).val].reverse.find? fun id =>
    (a.block id).source.any fun s => s.first = start

/-- Counts a changing write to every byte from `first` to `last`; counts stop
at the highest. -/
def noteChanges (w : Watch) (first last : Offset) : Watch :=
  let counts := w.changes.getD (Vector.replicate pageSize 0)
  { w with
    changes := some ((List.range' first.val (last.val + 1 - first.val)).foldl
      (fun c i => c.setIfInBounds i (let n := c.getD i 0; if n = 255 then n else n + 1))
      counts) }

end Watch

/-! ## Invalidation -/

/-- A watch being searched, and what was found so far. -/
structure Sweep where
  watch : Watch
  arena : Arena
  /-- Blocks freed. -/
  freed : Nat := 0
  /-- Whether the running block is among them. -/
  metRunning : Bool := false

namespace Sweep

def free (running : Option BlockId) (s : Sweep) (id : BlockId) : Sweep where
  watch := (s.arena.block id).source.elim s.watch s.watch.discount
  arena := s.arena.vacate id
  freed := s.freed + 1
  metRunning := s.metRunning || running = some id

/-- Frees the blocks of a bucket whose source meets the bytes from `first` to
`last`. -/
def bucket (first last : Offset) (running : Option BlockId) (s : Sweep)
    (b : Bucket) : Sweep :=
  let listed := s.watch.buckets[b.val]
  let hit (id : BlockId) : Bool :=
    (s.arena.block id).source.any fun src => src.overlaps first last
  let hits := listed.filter hit
  if hits.isEmpty then s
  else
    let buckets := s.watch.buckets.set b.val (listed.filter fun id => !hits.contains id)
    hits.foldl (free running) { s with watch := { s.watch with buckets } }

/-- Searches the buckets below `n` downward, until no bucket touched is
covered. -/
def below (first last : Offset) (running : Option BlockId) : Nat → Sweep → Sweep
  | 0, s => s
  | n + 1, s =>
      -- A block is listed where it starts, so none above the last bucket is met.
      if s.watch.coverageBetween (bucketOf first) (bucketOf last) = 0 then s
      else
        below first last running n
          (if h : n < bucketCount then s.bucket first last running ⟨n, h⟩ else s)

end Sweep

/-- Frees every indexed block whose source meets the bytes from `first` to
`last`. -/
def Watch.invalidate (w : Watch) (a : Arena) (first last : Offset)
    (running : Option BlockId) : Sweep :=
  let s := Sweep.below first last running ((bucketOf last).val + 1) ⟨w, a, 0, false⟩
  { s with
    arena := s.arena.count fun c =>
      { c with
        invalidations := c.invalidations + s.freed
        runningHits := c.runningHits + if s.metRunning then 1 else 0 } }

/-! ## The pool of watches -/

/-- The watches of a recompiler. -/
structure Watches where
  pool : Array Watch
  /-- Watches not in use, the next to be used first. -/
  free : List WatchId
  /-- Watches in use, the oldest first. -/
  used : List WatchId
  /-- The rule that taking a watch down broke, if one did: the fault in which
  all ends that is being done. -/
  broken : Option Corruption := none
  deriving DecidableEq, Repr

namespace Watches

def new (capacity delay : Nat) : Watches where
  pool := Array.replicate capacity (.fresh 0 delay)
  free := (List.range capacity).map .mk
  used := []

def capacity (ws : Watches) : Nat := ws.pool.size

def watch (ws : Watches) (id : WatchId) : Watch :=
  ws.pool.getD id.number (.fresh 0 0)

def set (ws : Watches) (id : WatchId) (w : Watch) : Watches :=
  { ws with pool := ws.pool.setIfInBounds id.number w }

def install (ws : Watches) (id : WatchId) (page : Nat) : Watches :=
  { ws.set id (.fresh page (ws.watch id).delay) with
    free := ws.free.erase id, used := ws.used ++ [id] }

/-- Takes a watch down, which must not have blocks any more. -/
def release (ws : Watches) (id : WatchId) : Watches :=
  { ws.set id (.fresh 0 (ws.watch id).delay) with
    free := id :: ws.free
    used := ws.used.filter (· ≠ id)
    broken :=
      if (ws.watch id).active = 0 then ws.broken
      else ws.broken.or (some .releasedWithBlocks) }

theorem watch_set (ws : Watches) (id other : WatchId) (w : Watch)
    (h : id.number < ws.capacity) :
    (ws.set id w).watch other = if id = other then w else ws.watch other := by
  obtain ⟨i⟩ := id
  obtain ⟨j⟩ := other
  simp only [watch, set, Array.getD_eq_getD_getElem?, WatchId.mk.injEq]
  by_cases hij : i = j
  · subst hij
    have : i < ws.pool.size := h
    simp [this]
  · simp [hij]

end Watches

end Recompiler
