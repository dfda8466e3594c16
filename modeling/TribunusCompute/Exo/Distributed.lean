import TribunusCompute.Cache.PrefixCache

/-!
# The distributed cache of pages

Each page hash belongs to one node, by a ring of positions. `put_page` allocates the data of a
page in the node's RDMA region, builds the page, and drops it: no page ever reaches the shards
that `get_page` and `check_prefix` read. `none` stands for an index out of bounds.
-/
namespace TribunusCompute.Exo

open Cache

structure NodeInfo where
  id : String
  address : String
  ramGb : UInt32
  modelLayerRange : Option (UInt32 × UInt32)
  rdma : Bool
  deriving DecidableEq, Repr

/-! ## The ring -/

structure ConsistentHashRing where
  ring : List (UInt64 × ℕ)
  nodeCount : ℕ
  deriving DecidableEq, Repr

namespace ConsistentHashRing

/-- A later node takes a position from an earlier one. -/
def insert (ring : List (UInt64 × ℕ)) (key : UInt64) (idx : ℕ) : List (UInt64 × ℕ) :=
  (ring.filter fun entry => entry.1 < key) ++
    (key, idx) :: ring.filter fun entry => key < entry.1

/-- `virtualPos` is the standard hash of a node's id and the number of a replica. -/
def build (virtualPos : String → ℕ → UInt64) (nodeIds : List String) (replicas : ℕ) :
    ConsistentHashRing where
  ring := nodeIds.zipIdx.foldl (fun ring node =>
    (List.range replicas).foldl (fun ring r => insert ring (virtualPos node.1 r) node.2) ring) []
  nodeCount := nodeIds.length

/-- The first eight bytes, on a little-endian machine. -/
def hashToRingPos (hash : BlockHash) : UInt64 :=
  UInt64.ofNat (LittleEndian.decode (hash.take 8))

def nodeIndex (ring : ConsistentHashRing) (hash : BlockHash) : ℕ :=
  match ring.ring.find? fun entry => hashToRingPos hash ≤ entry.1 with
  | some (_, idx) => idx
  | none => ((ring.ring.map Prod.snd).head?).getD 0

/-- What each insertion keeps holds of the ring that is built. -/
theorem build_keeps {P : List (UInt64 × ℕ) → Prop} {virtualPos : String → ℕ → UInt64}
    {nodes : List (String × ℕ)} {replicas : ℕ} {ring : List (UInt64 × ℕ)} (start : P ring)
    (keeps : ∀ node ∈ nodes, ∀ key ring, P ring → P (insert ring key node.2)) :
    P (nodes.foldl (fun ring node => (List.range replicas).foldl
      (fun ring r => insert ring (virtualPos node.1 r) node.2) ring) ring) :=
  List.foldlRecOn _ _ start fun _ before node member =>
    List.foldlRecOn _ _ before fun ring before _ _ => keeps node member _ ring before

theorem snd_lt_of_mem_insert {ring : List (UInt64 × ℕ)} {key : UInt64} {idx count : ℕ}
    (inside : idx < count) (before : ∀ entry ∈ ring, entry.2 < count) :
    ∀ entry ∈ insert ring key idx, entry.2 < count := by
  unfold insert
  rw [List.forall_mem_append, List.forall_mem_cons]
  exact ⟨fun entry lower => before entry (List.mem_of_mem_filter lower), inside,
    fun entry upper => before entry (List.mem_of_mem_filter upper)⟩

theorem snd_lt_of_mem_build {virtualPos : String → ℕ → UInt64} {nodeIds : List String}
    {replicas : ℕ} :
    ∀ entry ∈ (build virtualPos nodeIds replicas).ring, entry.2 < nodeIds.length :=
  build_keeps (P := fun ring => ∀ entry ∈ ring, entry.2 < nodeIds.length) nofun
    fun _ member _ _ => snd_lt_of_mem_insert (List.snd_lt_of_mem_zipIdx member)

theorem nodeIndex_build_lt {virtualPos : String → ℕ → UInt64} {nodeIds : List String}
    {replicas : ℕ} (nonempty : nodeIds ≠ []) (hash : BlockHash) :
    (build virtualPos nodeIds replicas).nodeIndex hash < nodeIds.length := by
  unfold nodeIndex
  split
  next position idx found =>
    exact snd_lt_of_mem_build (position, idx) (List.mem_of_find?_eq_some found)
  next =>
    cases front : ((build virtualPos nodeIds replicas).ring.map Prod.snd).head? with
    | none => exact List.length_pos_iff.mpr nonempty
    | some idx =>
      obtain ⟨entry, member, rfl⟩ := List.mem_map.mp (List.mem_of_head? front)
      exact snd_lt_of_mem_build entry member

/-! ## Nodes that are added -/

def Sorted (ring : List (UInt64 × ℕ)) : Prop := ring.Pairwise fun a b => a.1 ≤ b.1

variable {ring : List (UInt64 × ℕ)} {key : UInt64} {idx : ℕ}

theorem sorted_insert (sorted : Sorted ring) : Sorted (insert ring key idx) := by
  unfold insert Sorted
  simp only [List.pairwise_append, List.pairwise_cons, List.mem_cons, List.mem_filter,
    decide_eq_true_eq]
  refine ⟨sorted.filter _, ⟨fun entry upper => UInt64.le_of_lt upper.2, sorted.filter _⟩, ?_⟩
  rintro entry ⟨-, lower⟩ other (rfl | ⟨-, upper⟩)
  · exact UInt64.le_of_lt lower
  · exact UInt64.le_of_lt (UInt64.lt_trans lower upper)

theorem filter_prefix (sorted : Sorted ring) (key : UInt64) :
    (ring.filter fun entry => entry.1 < key) <+: ring := by
  induction ring with
  | nil => exact List.nil_prefix
  | cons entry ring ih =>
    obtain ⟨first, sorted⟩ := List.pairwise_cons.mp sorted
    rw [List.filter_cons]
    split
    next => exact List.cons_prefix_cons.mpr ⟨rfl, ih sorted⟩
    next above =>
      have none_ : (ring.filter fun entry => entry.1 < key) = [] := by
        simp only [decide_eq_true_eq, UInt64.not_lt] at above
        simp only [List.filter_eq_nil_iff, decide_eq_true_eq, UInt64.not_lt]
        exact fun other member => UInt64.le_trans above (first other member)
      rw [none_]
      exact List.nil_prefix

/-- A new position takes over pages, and no other page moves. -/
theorem nodeIndex_insert (sorted : Sorted ring) (hash : BlockHash) (m n : ℕ) :
    nodeIndex ⟨insert ring key idx, n⟩ hash = nodeIndex ⟨ring, m⟩ hash ∨
      nodeIndex ⟨insert ring key idx, n⟩ hash = idx := by
  have front := filter_prefix sorted key
  unfold nodeIndex insert
  simp only [List.find?_append, List.find?_cons]
  cases lower : (ring.filter fun entry => entry.1 < key).find? fun entry =>
    hashToRingPos hash ≤ entry.1 with
  | some entry =>
    rw [front.find?_eq_some lower]
    exact .inl rfl
  | none =>
    by_cases here : hashToRingPos hash ≤ key
    · simp [here]
    · -- what is found is behind the new position, or else it is the first entry
      have same : ((ring.filter fun entry => key < entry.1).find? fun entry =>
          hashToRingPos hash ≤ entry.1) = ring.find? fun entry => hashToRingPos hash ≤ entry.1 := by
        rw [List.find?_filter]
        congr 1
        funext entry
        simp only [decide_eq_true_eq, decide_eq_decide, and_iff_right_iff_imp]
        exact UInt64.lt_of_lt_of_le (UInt64.not_le.mp here)
      simp only [here, decide_false, same, Option.none_or]
      cases ring.find? fun entry => hashToRingPos hash ≤ entry.1 with
      | some entry => exact .inl rfl
      | none =>
        obtain ⟨rest, split_⟩ := front
        cases below : ring.filter fun entry => entry.1 < key with
        | nil => exact .inr rfl
        | cons entry lower =>
          rw [below] at split_
          simp [← split_]

/-- A page stays with its node when nodes are added, or one of the added nodes takes it over. -/
theorem nodeIndex_append (virtualPos : String → ℕ → UInt64) (nodeIds added : List String)
    (replicas : ℕ) (hash : BlockHash) :
    (build virtualPos (nodeIds ++ added) replicas).nodeIndex hash =
        (build virtualPos nodeIds replicas).nodeIndex hash ∨
      nodeIds.length ≤ (build virtualPos (nodeIds ++ added) replicas).nodeIndex hash ∧
        (build virtualPos (nodeIds ++ added) replicas).nodeIndex hash <
          nodeIds.length + added.length := by
  have sorted : Sorted (build virtualPos nodeIds replicas).ring :=
    build_keeps List.Pairwise.nil fun _ _ _ _ => sorted_insert
  have grown : (build virtualPos (nodeIds ++ added) replicas).ring =
      (added.zipIdx nodeIds.length).foldl (fun ring node => (List.range replicas).foldl
        (fun ring r => insert ring (virtualPos node.1 r) node.2) ring)
        (build virtualPos nodeIds replicas).ring := by
    rw [build, List.zipIdx_append, List.foldl_append, Nat.zero_add]
    rfl
  have kept : Sorted (build virtualPos (nodeIds ++ added) replicas).ring ∧
      ((build virtualPos (nodeIds ++ added) replicas).nodeIndex hash =
          (build virtualPos nodeIds replicas).nodeIndex hash ∨
        nodeIds.length ≤ (build virtualPos (nodeIds ++ added) replicas).nodeIndex hash) := by
    unfold nodeIndex
    rw [grown]
    refine build_keeps (P := fun ring => Sorted ring ∧
      (nodeIndex ⟨ring, 0⟩ hash = (build virtualPos nodeIds replicas).nodeIndex hash ∨
        nodeIds.length ≤ nodeIndex ⟨ring, 0⟩ hash)) ⟨sorted, .inl rfl⟩ ?_
    rintro node member key ring ⟨sorted, before⟩
    refine ⟨sorted_insert sorted, ?_⟩
    rcases @nodeIndex_insert ring key node.2 sorted hash 0 0 with same | new
    · rwa [same]
    · rw [new]
      exact .inr (List.le_snd_of_mem_zipIdx member)
  by_cases nonempty : nodeIds ++ added = []
  · obtain ⟨rfl, rfl⟩ := List.append_eq_nil_iff.mp nonempty
    exact .inl rfl
  · refine kept.2.imp_right fun above => ⟨above, ?_⟩
    rw [← List.length_append]
    exact nodeIndex_build_lt nonempty hash

end ConsistentHashRing

/-! ## Shards and regions -/

structure ShardedByNode (V : Type*) where
  shards : List (AList fun _ : BlockHash => V)
  ring : ConsistentHashRing

namespace ShardedByNode

variable {V : Type*}

def new (ring : ConsistentHashRing) : ShardedByNode V := ⟨List.replicate ring.nodeCount ∅, ring⟩

def shardFor (pages : ShardedByNode V) (hash : BlockHash) : ℕ := pages.ring.nodeIndex hash

def get (pages : ShardedByNode V) (hash : BlockHash) : Option (Option V) :=
  pages.shards[pages.shardFor hash]?.map fun shard => shard.lookup hash

def contains (pages : ShardedByNode V) (hash : BlockHash) : Option Bool :=
  pages.shards[pages.shardFor hash]?.map fun shard => decide (hash ∈ shard)

end ShardedByNode

/-- The data of the allocated pages by their offsets, and the next free offset. -/
structure RdmaRegion where
  size : ℕ
  allocations : List (ℕ × BlockHash × List UInt8)
  nextFree : ℕ
  deriving DecidableEq, Repr

namespace RdmaRegion

def new (size : ℕ) : RdmaRegion := ⟨size, [], 0⟩

def allocate (region : RdmaRegion) (hash : BlockHash) (data : List UInt8) :
    Except String (ℕ × RdmaRegion) :=
  if region.size < region.nextFree + data.length then
    .error ("RDMA region full: " ++ toString data.length ++ " bytes needed, " ++
      toString (region.size - region.nextFree) ++ " available")
  else
    .ok (region.nextFree, { region with
      allocations := (region.allocations.filter fun entry => entry.1 ≠ region.nextFree) ++
        [(region.nextFree, hash, data)]
      nextFree := region.nextFree + data.length })

end RdmaRegion

/-! ## The cache -/

structure DistributedKvPage where
  tokenHash : BlockHash
  pageData : List UInt8
  sourceNode : String
  rdmaOffset : ℕ
  deriving DecidableEq, Repr

structure DistributedKvCache where
  pages : ShardedByNode DistributedKvPage
  rdmaRegion : Option RdmaRegion
  localNode : String
  nodes : List NodeInfo
  ring : ConsistentHashRing

def hashRingReplicas : ℕ := 151

/-- 256 MiB. -/
def rdmaRegionSize : ℕ := 256 * 1024 * 1024

namespace DistributedKvCache

def new (virtualPos : String → ℕ → UInt64) (localNode : String) (nodes : List NodeInfo) :
    DistributedKvCache :=
  let ring := ConsistentHashRing.build virtualPos (nodes.map NodeInfo.id) hashRingReplicas
  { pages := .new ring
    rdmaRegion := (nodes.find? fun node => node.id = localNode).bind fun node =>
      if node.rdma then some (.new rdmaRegionSize) else none
    localNode := localNode
    nodes := nodes
    ring := ring }

def fetchRemotePage (_cache : DistributedKvCache) (_ownerIdx : ℕ) (_hash : BlockHash) :
    Option DistributedKvPage := none

def getPage (cache : DistributedKvCache) (hash : BlockHash) : Option (Option DistributedKvPage) :=
  let ownerIdx := cache.ring.nodeIndex hash
  match cache.nodes[ownerIdx]? with
  | none => none
  | some owner =>
    if owner.id = cache.localNode then cache.pages.get hash
    else some (cache.fetchRemotePage ownerIdx hash)

/-- Nothing is sent without a live transport. -/
def sendToRemote (_cache : DistributedKvCache) (_nodeIdx : ℕ) (_hash : BlockHash)
    (_data : List UInt8) : Except String Unit := .ok ()

/-- The offset of the page's data, and the cache with its region. -/
def allocate (cache : DistributedKvCache) (hash : BlockHash) (data : List UInt8) :
    Except String (ℕ × DistributedKvCache) :=
  match cache.rdmaRegion with
  | none => .ok (0, cache)
  | some region =>
    match region.allocate hash data with
    | .error e => .error e
    | .ok (offset, region) => .ok (offset, { cache with rdmaRegion := some region })

def putPage (cache : DistributedKvCache) (hash : BlockHash) (data : List UInt8) :
    Option (Except String Unit × DistributedKvCache) :=
  let ownerIdx := cache.ring.nodeIndex hash
  match cache.nodes[ownerIdx]? with
  | none => none
  | some owner =>
    let allocated :=
      if owner.id = cache.localNode then cache.allocate hash data
      else (cache.sendToRemote ownerIdx hash data).map fun () => (0, cache)
    match allocated with
    | .error e => some (.error e, cache)
    | .ok (rdmaOffset, cache) =>
      let _page : DistributedKvPage := ⟨hash, data, cache.localNode, rdmaOffset⟩
      some (.ok (), cache)

def blockHashes (hasher : List UInt32 → UInt64) (tokens : List UInt32) : List BlockHash :=
  (List.range (tokens.length / prefixBlockSize)).map fun blockIdx =>
    computeBlockHash hasher ((tokens.drop (blockIdx * prefixBlockSize)).take prefixBlockSize)

theorem mem_blockHashes {hasher : List UInt32 → UInt64} {tokens : List UInt32}
    {hash : BlockHash} (member : hash ∈ blockHashes hasher tokens) :
    ∃ block : List UInt32, block.length = prefixBlockSize ∧
      computeBlockHash hasher block = hash := by
  obtain ⟨blockIdx, inside, rfl⟩ := List.mem_map.mp member
  refine ⟨_, ?_, rfl⟩
  rw [List.mem_range] at inside
  rw [List.length_take, List.length_drop]
  unfold prefixBlockSize at inside ⊢
  omega

theorem blockHashes_block (hasher : List UInt32 → UInt64) {tokens : List UInt32}
    (full : tokens.length = prefixBlockSize) :
    blockHashes hasher tokens = [computeBlockHash hasher tokens] := by
  have one : List.range (tokens.length / prefixBlockSize) = [0] := by rw [full]; rfl
  rw [blockHashes, one, List.map_singleton, Nat.zero_mul, List.drop_zero, ← full,
    List.take_length]

/-- The loop of `check_prefix`, which stops at the first miss. -/
def matchedFrom (cache : DistributedKvCache) : List BlockHash → Option (List BlockHash)
  | [] => some []
  | hash :: rest =>
    match cache.pages.contains hash with
    | none => none
    | some true => (cache.matchedFrom rest).map fun matched => hash :: matched
    | some false => some []

def checkPrefix (hasher : List UInt32 → UInt64) (cache : DistributedKvCache)
    (tokens : List UInt32) : Option (Option (List BlockHash)) :=
  if tokens.length / prefixBlockSize = 0 then some none
  else
    (cache.matchedFrom (blockHashes hasher tokens)).map fun matched =>
      if matched.isEmpty then none else some matched

/-! ## The law of the store -/

/-- The calls of `put_page` one after another: those that returned `Ok`, and the cache. -/
def putAll (cache : DistributedKvCache) :
    List (BlockHash × List UInt8) → Option (List (BlockHash × List UInt8) × DistributedKvCache)
  | [] => some ([], cache)
  | put :: puts => do
    let (result, cache) ← cache.putPage put.1 put.2
    let (accepted, cache) ← cache.putAll puts
    match result with
    | .ok () => some (put :: accepted, cache)
    | .error _ => some (accepted, cache)

def ownsLocally (cache : DistributedKvCache) (hash : BlockHash) : Prop :=
  (cache.nodes[cache.ring.nodeIndex hash]?).map NodeInfo.id = some cache.localNode

instance (cache : DistributedKvCache) (hash : BlockHash) : Decidable (cache.ownsLocally hash) :=
  inferInstanceAs (Decidable (_ = _))

/-- What the cache answers once the puts are accepted. -/
structure StoreLaw (hasher : List UInt32 → UInt64) (accepted : List (BlockHash × List UInt8))
    (cache : DistributedKvCache) : Prop where
  /-- A page of the node itself is found, with the data of the last put of its hash. -/
  hits : ∀ hash put, cache.ownsLocally hash →
    accepted.reverse.find? (fun put => put.1 = hash) = some put →
    ∃ page, cache.getPage hash = some (some page) ∧ page.pageData = put.2
  /-- The longest run of full blocks that were put is found. -/
  prefixes : ∀ tokens, cache.checkPrefix hasher tokens =
    some (match (blockHashes hasher tokens).takeWhile (· ∈ accepted.map Prod.fst) with
      | [] => none
      | hashes => some hashes)
  /-- A refused put changes no answer. -/
  refusals : ∀ hash data e after, cache.putPage hash data = some (.error e, after) →
    (∀ other, after.getPage other = cache.getPage other) ∧
      ∀ tokens, after.checkPrefix hasher tokens = cache.checkPrefix hasher tokens

/-- The put leaves nothing that the law asks for: the data of a page of the node itself is longer
than its region, and no block of tokens has the hash of another node's page. -/
def LeavesNothing (hasher : List UInt32 → UInt64) (cache : DistributedKvCache)
    (put : BlockHash × List UInt8) : Prop :=
  if cache.ownsLocally put.1 then
    cache.rdmaRegion.isSome = true ∧ rdmaRegionSize < put.2.length
  else ∀ tokens : List UInt32, tokens.length = prefixBlockSize →
    computeBlockHash hasher tokens ≠ put.1

/-! ## No page is ever found -/

section
variable (virtualPos : String → ℕ → UInt64) (hasher : List UInt32 → UInt64) (localNode : String)
  {nodes : List NodeInfo}

def withRegion (cache : DistributedKvCache) (region : Option RdmaRegion) : DistributedKvCache :=
  { cache with rdmaRegion := region }

variable {cache after : DistributedKvCache} {region : Option RdmaRegion}

theorem putPage_withRegion {hash : BlockHash} {data : List UInt8} {result : Except String Unit}
    (taken : cache.putPage hash data = some (result, after)) :
    ∃ region, after = cache.withRegion region := by
  unfold putPage at taken
  dsimp only at taken
  split at taken
  next => cases taken
  next owner found =>
    split at taken
    next =>
      cases taken
      exact ⟨_, rfl⟩
    next rdmaOffset allocated there =>
      cases taken
      split at there
      next =>
        unfold allocate at there
        split at there
        next =>
          cases there
          exact ⟨_, rfl⟩
        next =>
          split at there <;> cases there
          exact ⟨_, rfl⟩
      next =>
        cases there
        exact ⟨_, rfl⟩

theorem putAll_withRegion {puts accepted : List (BlockHash × List UInt8)}
    (taken : cache.putAll puts = some (accepted, after)) :
    ∃ region, after = cache.withRegion region := by
  induction puts generalizing cache accepted after with
  | nil =>
    cases taken
    exact ⟨_, rfl⟩
  | cons put puts ih =>
    simp only [putAll, Option.bind_eq_bind, Option.bind_eq_some_iff] at taken
    obtain ⟨⟨result, next⟩, first, ⟨rest, last⟩, second, taken⟩ := taken
    obtain ⟨region, rfl⟩ := putPage_withRegion first
    have rest_ : (cache.withRegion region).putAll puts = some (rest, last) := second
    obtain ⟨region', rfl⟩ := ih rest_
    cases result <;> cases taken <;> exact ⟨region', rfl⟩

theorem ownsLocally_iff {hash : BlockHash} {owner : NodeInfo}
    (found : cache.nodes[cache.ring.nodeIndex hash]? = some owner) :
    cache.ownsLocally hash ↔ owner.id = cache.localNode := by
  rw [ownsLocally, found]
  exact Option.some_inj

theorem region_new {region : RdmaRegion}
    (there : (new virtualPos localNode nodes).rdmaRegion = some region) :
    region = .new rdmaRegionSize := by
  obtain ⟨node, -, fresh⟩ := Option.bind_eq_some_iff.mp there
  split at fresh <;> cases fresh
  rfl

theorem length_ids (nodes : List NodeInfo) :
    (nodes.map NodeInfo.id).length = nodes.length :=
  List.length_map _

variable (nonempty : nodes ≠ [])
include nonempty

theorem owner_new (hash : BlockHash) :
    ∃ owner, (new virtualPos localNode nodes).nodes[
      (new virtualPos localNode nodes).ring.nodeIndex hash]? = some owner := by
  have inside : (new virtualPos localNode nodes).ring.nodeIndex hash < nodes.length := by
    rw [← length_ids nodes]
    exact ConsistentHashRing.nodeIndex_build_lt (by simpa using nonempty) hash
  exact ⟨_, List.getElem?_eq_getElem inside⟩

theorem shard_new (hash : BlockHash) :
    (new virtualPos localNode nodes).pages.shards[
      (new virtualPos localNode nodes).pages.shardFor hash]? = some ∅ := by
  have inside : (new virtualPos localNode nodes).ring.nodeIndex hash < nodes.length := by
    rw [← length_ids nodes]
    exact ConsistentHashRing.nodeIndex_build_lt (by simpa using nonempty) hash
  change (List.replicate (nodes.map NodeInfo.id).length ∅)[_]? = _
  rw [List.getElem?_replicate, List.length_map]
  exact if_pos inside

theorem getPage_new (region : Option RdmaRegion) (hash : BlockHash) :
    ((new virtualPos localNode nodes).withRegion region).getPage hash = some none := by
  obtain ⟨owner, found⟩ := owner_new virtualPos localNode nonempty hash
  have shard := shard_new virtualPos localNode nonempty hash
  have missed : (new virtualPos localNode nodes).pages.get hash = some none := by
    rw [ShardedByNode.get, shard]
    rfl
  change (match (new virtualPos localNode nodes).nodes[
    (new virtualPos localNode nodes).ring.nodeIndex hash]? with
    | none => none
    | some owner => if owner.id = _ then (new virtualPos localNode nodes).pages.get hash
      else some none) = _
  rw [found, missed]
  exact ite_self _

theorem checkPrefix_new (region : Option RdmaRegion) (tokens : List UInt32) :
    ((new virtualPos localNode nodes).withRegion region).checkPrefix hasher tokens =
      some none := by
  have missed (hashes : List BlockHash) :
      ((new virtualPos localNode nodes).withRegion region).matchedFrom hashes = some [] := by
    cases hashes with
    | nil => rfl
    | cons hash rest =>
      have contains : (new virtualPos localNode nodes).pages.contains hash = some false := by
        rw [ShardedByNode.contains, shard_new virtualPos localNode nonempty hash]
        rfl
      simp only [matchedFrom, withRegion, contains]
  unfold checkPrefix
  split
  next => rfl
  next => rw [missed]; rfl

/-- The law holds where no accepted put was of a page of the node itself or of a block. -/
theorem storeLaw_iff_accepted (accepted : List (BlockHash × List UInt8))
    (region : Option RdmaRegion) :
    StoreLaw hasher accepted ((new virtualPos localNode nodes).withRegion region) ↔
      ∀ put ∈ accepted, ¬ (new virtualPos localNode nodes).ownsLocally put.1 ∧
        ∀ tokens : List UInt32, tokens.length = prefixBlockSize →
          computeBlockHash hasher tokens ≠ put.1 := by
  constructor
  · intro law put member
    constructor
    -- a fresh store has no page of the node itself
    · intro local_
      have there : (accepted.reverse.find? fun other => other.1 = put.1).isSome := by
        rw [List.find?_isSome]
        exact ⟨put, List.mem_reverse.mpr member, by simp⟩
      obtain ⟨found, found_⟩ := Option.isSome_iff_exists.mp there
      obtain ⟨page, hit, -⟩ := law.hits put.1 found local_ found_
      rw [getPage_new virtualPos localNode nonempty] at hit
      cases hit
    -- and knows no block, whatever was put
    · rintro tokens full same
      have found := law.prefixes tokens
      have hit : put.1 ∈ accepted.map Prod.fst := List.mem_map_of_mem member
      rw [checkPrefix_new virtualPos hasher localNode nonempty, blockHashes_block hasher full, same,
        List.takeWhile_cons_of_pos (by simpa using hit)] at found
      cases found
  · intro harmless
    refine ⟨fun hash put local_ found => ?_, fun tokens => ?_, fun hash data e after taken => ?_⟩
    · have member := List.mem_reverse.mp (List.mem_of_find?_eq_some found)
      have same : put.1 = hash := by simpa using List.find?_some found
      exact absurd (same ▸ local_) (harmless put member).1
    · have nothing : (blockHashes hasher tokens).takeWhile
          (fun hash => decide (hash ∈ accepted.map Prod.fst)) = [] := by
        cases hashes : blockHashes hasher tokens with
        | nil => rfl
        | cons hash rest =>
          obtain ⟨block, full, same⟩ := mem_blockHashes (hashes ▸ List.mem_cons_self)
          apply List.takeWhile_cons_of_neg
          rw [decide_eq_true_eq]
          intro hit
          obtain ⟨put, member, first⟩ := List.mem_map.mp hit
          exact (harmless put member).2 block full (same.trans first.symm)
      rw [checkPrefix_new virtualPos hasher localNode nonempty, nothing]
    · obtain ⟨region', rfl⟩ := putPage_withRegion taken
      constructor
      · intro other
        rw [getPage_new virtualPos localNode nonempty region]
        exact getPage_new virtualPos localNode nonempty region' other
      · intro tokens
        rw [checkPrefix_new virtualPos hasher localNode nonempty region]
        exact checkPrefix_new virtualPos hasher localNode nonempty region' tokens

/-- A put that leaves nothing is refused, or it is accepted for another node; in both cases the
cache stays as it is. -/
theorem putPage_leavesNothing {put : BlockHash × List UInt8}
    (nothing : LeavesNothing hasher (new virtualPos localNode nodes) put) :
    ∃ result, (new virtualPos localNode nodes).putPage put.1 put.2 =
        some (result, new virtualPos localNode nodes) ∧
      (result = .ok () → ¬ (new virtualPos localNode nodes).ownsLocally put.1) := by
  obtain ⟨owner, found⟩ := owner_new virtualPos localNode nonempty put.1
  unfold LeavesNothing at nothing
  split at nothing
  next local_ =>
    obtain ⟨present, long⟩ := nothing
    have owns := (ownsLocally_iff found).mp local_
    obtain ⟨region, there⟩ := Option.isSome_iff_exists.mp present
    obtain rfl := region_new virtualPos localNode there
    have refused : ∃ e, (new virtualPos localNode nodes).allocate put.1 put.2 = .error e := by
      have full : (RdmaRegion.new rdmaRegionSize).size <
          (RdmaRegion.new rdmaRegionSize).nextFree + put.2.length := by
        change rdmaRegionSize < 0 + put.2.length
        omega
      rw [allocate, there]
      dsimp only
      rw [RdmaRegion.allocate, if_pos full]
      exact ⟨_, rfl⟩
    obtain ⟨e, refused⟩ := refused
    refine ⟨.error e, ?_, nofun⟩
    unfold putPage
    simp only [found, owns, if_true, refused]
  next remote =>
    have other := mt (ownsLocally_iff found).mpr remote
    refine ⟨.ok (), ?_, fun _ => remote⟩
    unfold putPage
    simp only [found, other, if_false]
    rfl

/-- A put of a page of the node itself is accepted where its data fits. -/
theorem putPage_accepted {put : BlockHash × List UInt8}
    (something : ¬ LeavesNothing hasher (new virtualPos localNode nodes) put)
    {result : Except String Unit} {after : DistributedKvCache}
    (taken : (new virtualPos localNode nodes).putPage put.1 put.2 = some (result, after)) :
    result = .ok () ∧ ((new virtualPos localNode nodes).ownsLocally put.1 ∨
      ∃ tokens : List UInt32, tokens.length = prefixBlockSize ∧
        computeBlockHash hasher tokens = put.1) := by
  obtain ⟨owner, found⟩ := owner_new virtualPos localNode nonempty put.1
  unfold LeavesNothing at something
  unfold putPage at taken
  simp only [found] at taken
  split at something
  next local_ =>
    refine ⟨?_, .inl local_⟩
    have owns := (ownsLocally_iff found).mp local_
    rw [if_pos owns] at taken
    -- the region is new, so that only a payload larger than all of it is refused
    have fits : ∃ allocated,
        (new virtualPos localNode nodes).allocate put.1 put.2 = .ok allocated := by
      unfold allocate
      cases there : (new virtualPos localNode nodes).rdmaRegion with
      | none => exact ⟨_, rfl⟩
      | some region =>
        obtain rfl := region_new virtualPos localNode there
        have short : ¬ (RdmaRegion.new rdmaRegionSize).size <
            (RdmaRegion.new rdmaRegionSize).nextFree + put.2.length := by
          intro full
          apply something
          rw [there]
          refine ⟨rfl, ?_⟩
          change rdmaRegionSize < 0 + put.2.length at full
          omega
        dsimp only
        rw [RdmaRegion.allocate, if_neg short]
        exact ⟨_, rfl⟩
    obtain ⟨allocated, fits⟩ := fits
    rw [fits] at taken
    cases taken
    rfl
  next remote =>
    have other := mt (ownsLocally_iff found).mpr remote
    rw [if_neg other] at taken
    cases taken
    refine ⟨rfl, .inr ?_⟩
    simpa using something

/-- After a sequence of puts the cache obeys the law of a store exactly where each of them leaves
nothing that the law asks for. -/
theorem storeLaw_iff (puts : List (BlockHash × List UInt8)) :
    (∃ accepted after, (new virtualPos localNode nodes).putAll puts = some (accepted, after) ∧
        StoreLaw hasher accepted after) ↔
      ∀ put ∈ puts, LeavesNothing hasher (new virtualPos localNode nodes) put := by
  induction puts with
  | nil =>
    refine iff_of_true ⟨[], _, rfl, ?_⟩ nofun
    exact (storeLaw_iff_accepted virtualPos hasher localNode nonempty [] _).mpr nofun
  | cons put puts ih =>
    rw [List.forall_mem_cons]
    constructor
    · rintro ⟨accepted, after, taken, law⟩
      obtain ⟨region, rfl⟩ := putAll_withRegion taken
      have harmless := (storeLaw_iff_accepted virtualPos hasher localNode nonempty _ _).mp law
      simp only [putAll, Option.bind_eq_bind, Option.bind_eq_some_iff] at taken
      obtain ⟨⟨result, next⟩, first, ⟨rest, last⟩, second, taken⟩ := taken
      -- A put that leaves something is accepted, and then the law does not hold at the end.
      have nothing : LeavesNothing hasher (new virtualPos localNode nodes) put := by
        by_contra something
        obtain ⟨rfl, found⟩ :=
          putPage_accepted virtualPos hasher localNode nonempty something first
        cases taken
        obtain ⟨remote, noBlock⟩ := harmless put List.mem_cons_self
        rcases found with local_ | ⟨tokens, full, same⟩
        · exact remote local_
        · exact noBlock tokens full same
      refine ⟨nothing, ih.mp ⟨rest, last, ?_, ?_⟩⟩
      · obtain ⟨result', stays, -⟩ :=
          putPage_leavesNothing virtualPos hasher localNode nonempty nothing
        rw [stays] at first
        cases first
        exact second
      · cases result with
        | ok =>
          cases taken
          apply (storeLaw_iff_accepted virtualPos hasher localNode nonempty _ _).mpr
          exact fun put member => harmless put (List.mem_cons_of_mem _ member)
        | error e =>
          cases taken
          exact law
    · rintro ⟨nothing, rest⟩
      obtain ⟨accepted, after, taken, law⟩ := ih.mpr rest
      obtain ⟨result, stays, remote⟩ :=
        putPage_leavesNothing virtualPos hasher localNode nonempty nothing
      obtain ⟨region, rfl⟩ := putAll_withRegion taken
      cases result with
      | ok =>
        refine ⟨put :: accepted, (new virtualPos localNode nodes).withRegion region,
          by simp [putAll, stays, taken], ?_⟩
        have harmless := (storeLaw_iff_accepted virtualPos hasher localNode nonempty _ _).mp law
        apply (storeLaw_iff_accepted virtualPos hasher localNode nonempty _ _).mpr
        rw [List.forall_mem_cons]
        refine ⟨⟨remote rfl, ?_⟩, harmless⟩
        unfold LeavesNothing at nothing
        rwa [if_neg (remote rfl)] at nothing
      | error e => exact ⟨accepted, _, by simp [putAll, stays, taken], law⟩

end

theorem owner_singleton (virtualPos : String → ℕ → UInt64) (localNode : String) (node : NodeInfo)
    (hash : BlockHash) :
    (new virtualPos localNode [node]).nodes[
      (new virtualPos localNode [node]).ring.nodeIndex hash]? = some node := by
  obtain ⟨owner, found⟩ := owner_new virtualPos localNode (List.cons_ne_nil node []) hash
  rw [found, List.mem_singleton.mp (List.mem_of_getElem? found)]

/-- A page that is no block, for the only other node of the cluster. -/
theorem storeLaw_iff_remote :
    ∃ accepted after,
      (new (fun _ _ => 0) "n1" [⟨"n0", "10.0.0.1:52415", 64, none, false⟩]).putAll
        [(List.replicate 32 1, [1])] = some (accepted, after) ∧
      StoreLaw (fun _ => 0) accepted after := by
  apply (storeLaw_iff (fun _ _ => 0) (fun _ => 0) "n1" (List.cons_ne_nil _ []) _).mpr
  intro put member
  obtain rfl := List.mem_singleton.mp member
  have remote : ¬ (new (fun _ _ => 0) "n1" [⟨"n0", "10.0.0.1:52415", 64, none, false⟩]).ownsLocally
      (List.replicate 32 1) := by
    rw [ownsLocally_iff (owner_singleton _ _ _ _)]
    change "n0" ≠ "n1"
    decide
  rw [LeavesNothing, if_neg remote]
  intro tokens _ same
  have zero : (0 : UInt8) = 1 := Option.some.inj (congrArg List.head? same)
  revert zero
  decide

/-- One node without an RDMA region: the put is accepted, and the page is not found. -/
theorem accepted_page_lost :
    ∃ after : DistributedKvCache,
      (new (fun _ _ => 0) "n0" [⟨"n0", "10.0.0.1:52415", 64, none, false⟩]).putPage
        (List.replicate 32 0) [1] = some (.ok (), after) ∧
      after.ownsLocally (List.replicate 32 0) ∧
      after.getPage (List.replicate 32 0) = some none := by
  have found := owner_singleton (fun _ _ => 0) "n0" ⟨"n0", "10.0.0.1:52415", 64, none, false⟩
    (List.replicate 32 0)
  have none_ : (new (fun _ _ => 0) "n0" [⟨"n0", "10.0.0.1:52415", 64, none, false⟩]).rdmaRegion =
      none := by
    simp [new]
  refine ⟨new (fun _ _ => 0) "n0" [⟨"n0", "10.0.0.1:52415", 64, none, false⟩], ?_, ?_, ?_⟩
  · unfold putPage
    simp only [found, allocate, none_]
    exact congrArg some rfl
  · exact (ownsLocally_iff found).mpr rfl
  · exact getPage_new _ _ (List.cons_ne_nil _ []) none _

end DistributedKvCache

end TribunusCompute.Exo
