import Mathlib.Data.List.AList
import Mathlib.Data.List.Sort
import TribunusCompute.KvCache.PageData
import TribunusCompute.Memory.Pager

/-!
# The continuous-batching scheduler

`scheduling/scheduler.rs`: requests wait in a queue, run in slots that hold the
pages of their KV cache, and may be preempted and resumed. Instants are numbers.
-/
namespace TribunusCompute.Scheduling

open KvCache Memory

inductive RequestState
  | queued
  | prefilling
  | decoding
  | paused
  | completed
  | cancelled
  deriving DecidableEq, Repr

structure Request where
  id : UInt64
  prompt : List UInt32
  maxTokens : ℕ
  priority : UInt8
  state : RequestState
  createdAt : ℕ
  slot : Option ℕ
  deriving DecidableEq, Repr

structure Slot where
  id : ℕ
  requestId : Option UInt64
  tokensGenerated : ℕ
  kvCacheStart : ℕ
  kvCacheLength : ℕ
  backendId : UInt32
  kvCachePages : List ℕ
  deriving DecidableEq, Repr

structure Batch where
  slots : List Slot
  batchSize : ℕ
  maxBatchSize : ℕ
  deriving DecidableEq, Repr

/-- A preempted request with the pages of its KV cache. -/
structure SavedRequest where
  requestId : UInt64
  kvCacheSnapshot : List CompressedKvSlot
  prompt : List UInt32
  maxTokens : ℕ
  tokensGenerated : ℕ
  kvCacheLength : ℕ
  kvCacheStart : ℕ
  priority : UInt8
  kvCachePages : List ℕ
  preemptionCount : ℕ
  deriving DecidableEq, Repr

structure SchedulerConfig where
  maxBatchSize : ℕ
  maxPrefillBatch : ℕ
  defaultBackendId : UInt32
  kvCachePagesPerSlot : ℕ
  deriving DecidableEq, Repr

structure RoutedOperation where
  operationId : UInt64
  backend : UInt32
  deriving DecidableEq, Repr

structure ComputeRouteProfile where
  operations : List RoutedOperation
  deriving DecidableEq, Repr

def maxPreemptionsBeforeBoost : ℕ := 3

def starvationPriorityBoost : UInt8 := 64

def tokensPerPage : ℕ := 64

structure Scheduler where
  queue : List Request
  active : List Request
  slots : List Slot
  config : SchedulerConfig
  routeProfile : Option ComputeRouteProfile
  kvCachePager : Option PagedIosurfaceAllocator
  preempted : List SavedRequest
  starvationCounters : AList (fun _ : UInt64 => ℕ)
  preemptionEnabled : Bool

namespace Slot

def new (id : ℕ) : Slot where
  id := id
  requestId := none
  tokensGenerated := 0
  kvCacheStart := 0
  kvCacheLength := 0
  backendId := 0
  kvCachePages := []

def isFree (slot : Slot) : Bool := slot.requestId.isNone

/-- The slot as completion, preemption and draining leave it. -/
def cleared (slot : Slot) : Slot :=
  { slot with
    requestId := none
    tokensGenerated := 0
    kvCacheLength := 0
    kvCacheStart := 0
    kvCachePages := [] }

/-- `iter_mut().find(p)`: the first slot that satisfies `p`, between the slots around it. -/
def find (p : Slot → Bool) : List Slot → Option (List Slot × Slot × List Slot)
  | [] => none
  | slot :: slots =>
    if p slot then some ([], slot, slots)
    else (find p slots).map fun (before, found, after) => (slot :: before, found, after)

end Slot

namespace Scheduler

def new (config : SchedulerConfig) : Scheduler where
  queue := []
  active := []
  slots := (List.range config.maxBatchSize).map fun id =>
    { Slot.new id with backendId := config.defaultBackendId }
  config := config
  routeProfile := none
  kvCachePager := none
  preempted := []
  starvationCounters := ∅
  preemptionEnabled := true

def setKvCachePager (s : Scheduler) (pager : PagedIosurfaceAllocator) : Scheduler :=
  { s with kvCachePager := some pager }

def enqueue (s : Scheduler) (request : Request) : Scheduler :=
  { s with queue := s.queue ++ [request] }

def enqueueWithPriority (s : Scheduler) (req : Request) (priority : UInt8) : Scheduler :=
  { s with queue := s.queue ++ [{ req with priority := priority }] }

/-! ## Building a batch -/

/-- Queued requests by ascending priority value; the sort is stable. -/
def sortQueue (queue : List Request) : List Request :=
  queue.insertionSort fun a b => a.priority ≤ b.priority

/-- Move requests from the end of the queue to the active set within the limits. The queue is
given from its end. -/
def poll (config : SchedulerConfig) : List Request → List Request → List Request × List Request
  | [], active => ([], active)
  | req :: queue, active =>
    if active.length < config.maxBatchSize ∧ active.length < config.maxPrefillBatch then
      poll config queue (active ++ [req])
    else (req :: queue, active)

def addSlots (slots : List Slot) (count : ℕ) : List Slot :=
  slots ++ (List.range count).map fun i => Slot.new (slots.length + i)

def routedBackend (config : SchedulerConfig) (profile : Option ComputeRouteProfile)
    (id : UInt64) : UInt32 :=
  match profile with
  | some profile =>
    ((profile.operations.find? (·.operationId = id)).map (·.backend)).getD config.defaultBackendId
  | none => config.defaultBackendId

/-- The pages of a slot that starts a request; without a successful allocation it keeps its own. -/
def allocateSlotPages (config : SchedulerConfig) (pages : List ℕ) :
    Option PagedIosurfaceAllocator → List ℕ × Option PagedIosurfaceAllocator
  | none => (pages, none)
  | some pager =>
    match pager.allocatePages config.kvCachePagesPerSlot with
    | some (pageIds, pager) => (pageIds, some pager)
    | none => (pages, some pager)

def assignSlot (config : SchedulerConfig) (profile : Option ComputeRouteProfile)
    (pager : Option PagedIosurfaceAllocator) (slots : List Slot) (req : Request) :
    Request × List Slot × Option PagedIosurfaceAllocator :=
  if req.slot.isNone then
    match Slot.find Slot.isFree slots with
    | some (before, slot, after) =>
      let (pages, pager) := allocateSlotPages config slot.kvCachePages pager
      let started : Slot :=
        { slot with
          requestId := some req.id
          kvCacheLength := req.prompt.length
          tokensGenerated := 0
          kvCacheStart := 0
          backendId := routedBackend config profile req.id
          kvCachePages := pages }
      ({ req with slot := some slot.id }, before ++ started :: after, pager)
    | none => (req, slots, pager)
  else (req, slots, pager)

def prefill (config : SchedulerConfig) (profile : Option ComputeRouteProfile) :
    Option PagedIosurfaceAllocator → List Slot → List Request →
      List Request × List Slot × Option PagedIosurfaceAllocator
  | pager, slots, [] => ([], slots, pager)
  | pager, slots, req :: active =>
    let (req, slots, pager) := assignSlot config profile pager slots req
    let (active, slots, pager) := prefill config profile pager slots active
    (req :: active, slots, pager)

/-- Extend the KV cache of every occupied slot by one token. -/
def decode (slots : List Slot) : List Slot :=
  slots.map fun slot =>
    if slot.isFree then slot else { slot with kvCacheLength := slot.kvCacheLength + 1 }

def batchOf (s : Scheduler) : Batch :=
  let batchSlots := s.slots.filter fun slot => !slot.isFree
  { slots := batchSlots, batchSize := batchSlots.length, maxBatchSize := s.config.maxBatchSize }

def nextBatch (s : Scheduler) : Batch × Scheduler :=
  let (queue, active) := poll s.config (sortQueue s.queue).reverse s.active
  let prefillCount := active.countP fun req => req.slot.isNone
  let s : Scheduler := { s with queue := queue.reverse, active := active }
  let s : Scheduler :=
    if 0 < prefillCount then
      let freeCount := s.slots.countP Slot.isFree
      let slots :=
        if freeCount < prefillCount then addSlots s.slots (prefillCount - freeCount) else s.slots
      let (active, slots, pager) := prefill s.config s.routeProfile s.kvCachePager slots active
      { s with active := active, slots := slots, kvCachePager := pager }
    else { s with slots := decode s.slots }
  (s.batchOf, s)

/-! ## Processing results -/

/-- Count one token for a slot of the batch; a slot whose request is done gives its pages back. -/
def processSlot (s : Scheduler) (batchSlot : Slot) : Scheduler :=
  match batchSlot.requestId with
  | none => s
  | some requestId =>
    match Slot.find (·.id = batchSlot.id) s.slots with
    | none => s
    | some (before, slot, after) =>
      let slot := { slot with tokensGenerated := slot.tokensGenerated + 1 }
      match s.active.find? (·.id = requestId) with
      | some req =>
        if req.maxTokens ≤ slot.tokensGenerated then
          { s with
            slots := before ++ slot.cleared :: after
            kvCachePager := s.kvCachePager.map (·.freeAll slot.kvCachePages) }
        else { s with slots := before ++ slot :: after }
      | none => { s with slots := before ++ slot :: after }

def processResults (s : Scheduler) (batch : Batch) : Scheduler :=
  let s := batch.slots.foldl processSlot s
  { s with active := s.active.filter fun req => s.slots.any fun slot => slot.requestId = some req.id }

/-! ## Preemption -/

/-- The boost of a request that was preempted `count` times, as `u8` arithmetic has it. -/
def starvationBoost (count : ℕ) : UInt8 :=
  let cycles := UInt8.ofNat (count - maxPreemptionsBeforeBoost + 1)
  UInt8.ofNat (min 255 (cycles.toNat * starvationPriorityBoost.toNat))

def applyStarvationBoosts (s : Scheduler) : Scheduler :=
  { s with
    active := s.active.map fun req =>
      match s.starvationCounters.lookup req.id with
      | some count =>
        if maxPreemptionsBeforeBoost ≤ count then
          { req with priority :=
              UInt8.ofNat (req.priority.toNat - (starvationBoost count).toNat) }
        else req
      | none => req }

/-- `(priority, created_at)` of `a` is at most that of `b`. -/
def keyLe (a b : Request) : Bool :=
  a.priority < b.priority || (a.priority = b.priority && a.createdAt ≤ b.createdAt)

/-- `max_by_key(|(_, r)| (r.priority, r.created_at))`: the last of the greatest. -/
def victimOf (active : List Request) : Option (ℕ × Request) :=
  active.zipIdx.foldl (fun best (req, i) =>
    match best with
    | none => some (i, req)
    | some (j, top) => if keyLe top req then some (i, req) else some (j, top)) none

/-- The metadata of one page per saved page; `saturating_sub` and the cast to `u32`. -/
def snapshotOf (slot : Slot) : List CompressedKvSlot :=
  (List.range slot.kvCachePages.length).map fun i =>
    { compressedKeys := []
      compressedValues := []
      qjlCorrection := none
      kvOffset := UInt32.ofNat (slot.kvCacheStart + i * tokensPerPage)
      numTokens := min tokensPerPage (slot.kvCacheLength - i * tokensPerPage) }

def preemptVictim (s : Scheduler) (victimIdx : ℕ) (victim : Request) :
    Option SavedRequest × Scheduler :=
  match victim.slot with
  | none => (none, s)
  | some slotId =>
    match Slot.find (·.id = slotId) s.slots with
    | none => (none, s)
    | some (before, slot, after) =>
      let preemptionCount := (s.starvationCounters.lookup victim.id).getD 0
      let saved : SavedRequest :=
        { requestId := victim.id
          kvCacheSnapshot := snapshotOf slot
          prompt := victim.prompt
          maxTokens := victim.maxTokens
          tokensGenerated := slot.tokensGenerated
          kvCacheLength := slot.kvCacheLength
          kvCacheStart := slot.kvCacheStart
          priority := victim.priority
          kvCachePages := slot.kvCachePages
          preemptionCount := preemptionCount + 1 }
      (some saved,
        { s with
          active := s.active.eraseIdx victimIdx
          slots := before ++ slot.cleared :: after
          preempted := s.preempted ++ [saved]
          starvationCounters := s.starvationCounters.insert victim.id (preemptionCount + 1) })

def preemptLowest (s : Scheduler) : Option SavedRequest × Scheduler :=
  if !s.preemptionEnabled then (none, s)
  else if s.active.length < s.config.maxBatchSize then (none, s)
  else
    let s := s.applyStarvationBoosts
    match victimOf s.active with
    | none => (none, s)
    | some (victimIdx, victim) =>
      if victim.priority = 0 then (none, s) else s.preemptVictim victimIdx victim

/-- `now` is the instant of the call. -/
def resume (s : Scheduler) (saved : SavedRequest) (now : ℕ) : Scheduler :=
  let preempted := s.preempted.filter fun other => other.requestId ≠ saved.requestId
  let req : Request :=
    { id := saved.requestId
      prompt := saved.prompt
      maxTokens := saved.maxTokens
      priority := saved.priority
      state := .paused
      createdAt := now
      slot := none }
  match Slot.find Slot.isFree s.slots with
  | some (before, slot, after) =>
    let resumed : Slot :=
      { slot with
        requestId := some saved.requestId
        tokensGenerated := saved.tokensGenerated
        kvCacheLength := saved.kvCacheLength
        kvCacheStart := saved.kvCacheStart
        kvCachePages := saved.kvCachePages
        backendId := s.config.defaultBackendId }
    { s with
      preempted := preempted
      slots := before ++ resumed :: after
      active := s.active ++ [{ req with state := .decoding, slot := some slot.id }] }
  | none =>
    -- The request goes back to the queue, and its pages are held by nobody.
    { s with preempted := preempted, queue := s.queue ++ [req] }

def drainSlots : Option PagedIosurfaceAllocator → List Slot →
    List Slot × Option PagedIosurfaceAllocator
  | pager, [] => ([], pager)
  | pager, slot :: slots =>
    if slot.isFree then
      let (slots, pager) := drainSlots pager slots
      (slot :: slots, pager)
    else
      let (slots, pager) := drainSlots (pager.map (·.freeAll slot.kvCachePages)) slots
      (slot.cleared :: slots, pager)

def drainAll (s : Scheduler) : List SavedRequest × Scheduler :=
  let (slots, pager) := drainSlots s.kvCachePager s.slots
  (s.preempted,
    { s with
      queue := []
      active := []
      slots := slots
      kvCachePager := pager
      preempted := []
      starvationCounters := ∅ })

end Scheduler

end TribunusCompute.Scheduling
