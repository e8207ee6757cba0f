import Zakura.Lib.FiniteMap

/-!
Peer samples of the discovery book. Within one disclosure epoch a requester is shown
one window of the epoch's snapshot, whatever it asks for and however the book changes.
-/

namespace Zakura.Discovery

open FiniteMap

abbrev NodeId := Nat

inductive IpAddr where
  | v4 (bits : BitVec 32)
  | v6 (bits : BitVec 128)
  deriving DecidableEq

structure SocketAddr where
  ip : IpAddr
  port : Nat
  deriving DecidableEq

/-- An address with an IPv4-mapped IPv6 address in its IPv4 form. -/
def canonicalAddr (addr : SocketAddr) : SocketAddr :=
  match addr.ip with
  | .v4 _ => addr
  | .v6 bits => if bits >>> 32 = 0xffff then ⟨.v4 (bits.setWidth 32), addr.port⟩ else addr

def ipv4EmbeddedInIpv6 (bits : BitVec 128) : Option (BitVec 32) :=
  let last := bits.setWidth 32
  if bits >>> 32 = 0xffff then some last
  else if bits >>> 32 = 0 ∧ last ≠ 0 ∧ last ≠ 1 then some last
  -- 6to4, Teredo and the well-known NAT64 block
  else if bits >>> 112 = 0x2002 then some ((bits >>> 80).setWidth 32)
  else if bits >>> 96 = 0x20010000 then some (~~~last)
  else if bits >>> 32 = 0x64ff9b0000000000000000 then some last
  else none

def canonicalIp : IpAddr → IpAddr
  | .v4 bits => .v4 bits
  | .v6 bits => (ipv4EmbeddedInIpv6 bits).elim (.v6 bits) .v4

/-- Whether an address starts with the bits of one of the blocks. -/
def inBlocks {width : Nat} (bits : BitVec width) (blocks : List (Nat × Nat)) : Bool :=
  blocks.any fun (first, length) => bits.toNat >>> (width - length) == first

def isDiscoveryDialableAddr (addr : SocketAddr) : Bool :=
  addr.port != 0 && match canonicalIp addr.ip with
    | .v4 bits => !inBlocks bits
      -- this network, loopback, multicast, broadcast, link local, private
      [(0, 8), (127, 8), (0xe, 4), (0xffffffff, 32), (0xa9fe, 16), (10, 8), (0xac1, 12),
        (0xc0a8, 16),
        -- shared, protocol assignments, documentation, benchmarking, reserved
        (0x191, 10), (0xc00000, 24), (0xc00002, 24), (0xc63364, 24), (0xcb0071, 24),
        (0x6309, 15), (0xf, 4)]
    | .v6 bits => !inBlocks bits
      -- unspecified, loopback, multicast, link, unique and site local
      [(0, 128), (1, 128), (0xff, 8), (0x3fa, 10), (0x7e, 7), (0x3fb, 10),
        -- NAT64 translation, documentation
        (0x64ff9b0000000000000000, 96), (0x64ff9b0001, 48), (0x20010db8, 32)]

structure NodeRecord where
  nodeId : NodeId
  directAddrs : List SocketAddr
  services : List String
  sequence : Nat
  expiresAtUnixSecs : Nat

def hasDiscoveryDialableDirectAddrs (record : NodeRecord) : Bool :=
  !record.directAddrs.isEmpty && record.directAddrs.all isDiscoveryDialableAddr

def advertisesAllServices (record : NodeRecord) (wantedServices : List String) : Bool :=
  wantedServices.all (record.services.contains ·)

def listsAddr (record : NodeRecord) (addr : SocketAddr) : Bool :=
  record.directAddrs.any (canonicalAddr · == addr)

def insertListed (record : NodeRecord) (addrs : Finset SocketAddr) (addr : SocketAddr) :
    Finset SocketAddr :=
  if listsAddr record (canonicalAddr addr) then insert (canonicalAddr addr) addrs else addrs

/-- The fields of an entry that decide whether a sample shows it. The source keeps the
addresses as sorted lists without duplicates. -/
structure DiscoveryEntry where
  record : NodeRecord
  confirmedAddrs : Finset SocketAddr
  dialedAddrs : Finset SocketAddr

namespace DiscoveryEntry

def isConfirmed (entry : DiscoveryEntry) : Bool := entry.confirmedAddrs ≠ ∅

def isExpired (entry : DiscoveryEntry) (now : Nat) : Bool := entry.record.expiresAtUnixSecs < now

def confirm (entry : DiscoveryEntry) (authenticated dialed : List SocketAddr) :
    DiscoveryEntry × Bool :=
  if authenticated.isEmpty && dialed.isEmpty then (entry, false)
  else
    let confirmed := { entry with
      confirmedAddrs := (authenticated ++ dialed).foldl (insertListed entry.record) entry.confirmedAddrs
      dialedAddrs := dialed.foldl (insertListed entry.record) entry.dialedAddrs }
    (confirmed, !entry.isConfirmed && confirmed.isConfirmed)

def replaceRecord (entry : DiscoveryEntry) (record : NodeRecord) : DiscoveryEntry :=
  ⟨record, entry.confirmedAddrs.filter (listsAddr record ·),
    entry.dialedAddrs.filter (listsAddr record ·)⟩

/-- The updated entry, and whether it may have become a new sample candidate. -/
def updateExisting (entry : DiscoveryEntry) (record : NodeRecord)
    (confirmedAddrs dialedAddrs : List SocketAddr) (now : Nat) : DiscoveryEntry × Bool :=
  let storedOrders := !entry.isExpired now
  if storedOrders && record.sequence < entry.record.sequence then (entry, false)
  else
    let sameSequence := storedOrders && record.sequence == entry.record.sequence
    let kept := if !storedOrders && record.sequence ≤ entry.record.sequence then
      { entry with confirmedAddrs := ∅, dialedAddrs := ∅ } else entry
    let replaced := if sameSequence then kept else kept.replaceRecord record
    let (confirmed, newlyConfirmed) := replaced.confirm confirmedAddrs dialedAddrs
    (confirmed, !sameSequence || newlyConfirmed)

end DiscoveryEntry

structure SampleSnapshot where
  epoch : Nat
  nodeIds : List NodeId
  generation : BitVec 64

structure DiscoveryBook where
  entries : FiniteMap NodeId DiscoveryEntry
  maxImportedRecordsPerResponse : Nat
  localNodeId : Option NodeId
  disclosureKey : NodeId → Nat → Nat
  sampleSnapshot : Option SampleSnapshot
  generation : BitVec 64
  keyed : ∀ {nodeId entry}, entries.lookup nodeId = some entry → entry.record.nodeId = nodeId

/-- What a random generator does to a list. -/
structure Shuffle (Item : Type) where
  run : List Item → List Item
  perm : ∀ items, (run items).Perm items

structure SampleRequest where
  limit : Nat
  wantedServices : List String
  excludeNodeIds : List NodeId
  requester : NodeId
  shuffleIds : Shuffle NodeId
  shuffleRecords : Shuffle NodeRecord

def discoveryDisclosureEpoch : Nat := 10 * 60

def maxDiscoveryRecordsPerResponse : Nat := 32

namespace DiscoveryBook

variable {book : DiscoveryBook} {requester nodeId : NodeId} {record : NodeRecord} {now epoch : Nat}

def write (book : DiscoveryBook) (entry : DiscoveryEntry) (changed : Bool) : DiscoveryBook :=
  { book with
    entries := book.entries.insert entry.record.nodeId entry
    generation := if changed then book.generation + 1 else book.generation
    keyed := by
      intro nodeId stored found
      rcases lookup_insert_eq_some.mp found with ⟨rfl, rfl⟩ | ⟨_, found⟩
      · rfl
      · exact book.keyed found }

/-- What an import that passed its checks stores; the entries it drops to make room are
removed by events of their own. -/
def storeRecord (book : DiscoveryBook) (record : NodeRecord)
    (confirmedAddrs dialedAddrs : List SocketAddr) (now : Nat) : DiscoveryBook :=
  let (entry, changed) := match book.entries.lookup record.nodeId with
    | some entry => entry.updateExisting record confirmedAddrs dialedAddrs now
    | none => DiscoveryEntry.confirm ⟨record, ∅, ∅⟩ confirmedAddrs dialedAddrs
  book.write entry changed

def removeEntry (book : DiscoveryBook) (nodeId : NodeId) : DiscoveryBook :=
  { book with
    entries := book.entries.erase nodeId
    keyed := fun found => book.keyed (lookup_erase_eq_some.mp found).2 }

def markDialSuccess (book : DiscoveryBook) (nodeId : NodeId)
    (authenticatedAddr : Option SocketAddr) : DiscoveryBook :=
  match book.entries.lookup nodeId with
  | some entry =>
    let (confirmed, changed) := entry.confirm [] authenticatedAddr.toList
    book.write confirmed changed
  | none => book

def sampleWindow (book : DiscoveryBook) : Nat :=
  min book.maxImportedRecordsPerResponse maxDiscoveryRecordsPerResponse

def isSampleEligible (book : DiscoveryBook) (entry : DiscoveryEntry) (now : Nat) : Bool :=
  book.localNodeId != some entry.record.nodeId && !entry.isExpired now && entry.isConfirmed &&
    hasDiscoveryDialableDirectAddrs entry.record

def sampleCandidates (book : DiscoveryBook) (now : Nat) (known : List NodeId)
    (shuffle : Shuffle NodeId) : List NodeId :=
  shuffle.run ((ascending book.entries.keys).filter fun nodeId =>
    (book.entries.lookup nodeId).any (book.isSampleEligible · now) && !known.contains nodeId)

def refreshSampleSnapshot (book : DiscoveryBook) (now : Nat) (shuffle : Shuffle NodeId) :
    SampleSnapshot :=
  let epoch := now / discoveryDisclosureEpoch
  match book.sampleSnapshot.filter (·.epoch = epoch) with
  | some snapshot =>
    let room := book.sampleWindow - snapshot.nodeIds.length
    if 0 < room ∧ snapshot.generation ≠ book.generation then
      { snapshot with
        nodeIds := snapshot.nodeIds ++
          (book.sampleCandidates now snapshot.nodeIds shuffle).take room
        generation := book.generation }
    else snapshot
  | none => ⟨epoch, book.sampleCandidates now [] shuffle, book.generation⟩

/-- At most one turn of the cycled snapshot, from the requester's offset on. -/
def windowIds (book : DiscoveryBook) (requester : NodeId) (snapshot : SampleSnapshot) :
    List NodeId :=
  (snapshot.nodeIds.rotate
    (book.disclosureKey requester snapshot.epoch % snapshot.nodeIds.length)).take
      (min book.sampleWindow snapshot.nodeIds.length)

def samplePeers (book : DiscoveryBook) (request : SampleRequest) (now : Nat) :
    List NodeRecord × DiscoveryBook :=
  let limit := min request.limit book.sampleWindow
  let snapshot := book.refreshSampleSnapshot now request.shuffleIds
  let records :=
    if snapshot.nodeIds.length = 0 ∨ limit = 0 then []
    else
      request.shuffleRecords.run (((((book.windowIds request.requester snapshot).filter
        (!request.excludeNodeIds.contains ·)).filterMap (book.entries.lookup ·)).filter
          fun entry => book.isSampleEligible entry now &&
            advertisesAllServices entry.record request.wantedServices).take limit |>.map (·.record))
  (records, { book with sampleSnapshot := some snapshot })

inductive BookEvent where
  | storeRecord (record : NodeRecord) (confirmedAddrs dialedAddrs : List SocketAddr)
  | removeEntry (nodeId : NodeId)
  | markDialSuccess (nodeId : NodeId) (authenticatedAddr : Option SocketAddr)
  | samplePeers (request : SampleRequest)

def apply (book : DiscoveryBook) (now : Nat) : BookEvent → DiscoveryBook
  | .storeRecord record confirmedAddrs dialedAddrs =>
    book.storeRecord record confirmedAddrs dialedAddrs now
  | .removeEntry nodeId => book.removeEntry nodeId
  | .markDialSuccess nodeId authenticatedAddr => book.markDialSuccess nodeId authenticatedAddr
  | .samplePeers request => (book.samplePeers request now).2

/-- The ids that an event shows to the requester in the epoch. -/
def shownBy (book : DiscoveryBook) (requester epoch : Nat) (now : Nat) : BookEvent → Finset NodeId
  | .samplePeers request =>
    if request.requester = requester ∧ now / discoveryDisclosureEpoch = epoch then
      ((book.samplePeers request now).1.map NodeRecord.nodeId).toFinset
    else ∅
  | _ => ∅

def disclosed (requester epoch : Nat) : DiscoveryBook → List (Nat × BookEvent) → Finset NodeId
  | _, [] => ∅
  | book, (now, event) :: rest =>
    book.shownBy requester epoch now event ∪ disclosed requester epoch (book.apply now event) rest

variable {events : List (Nat × BookEvent)}

/-- What the book vouches for when it shows a record. -/
structure Vouches (book : DiscoveryBook) (now : Nat) (record : NodeRecord) : Prop where
  stored : ∃ entry, book.entries.lookup record.nodeId = some entry ∧ entry.record = record ∧
    entry.isConfirmed = true
  unexpired : now ≤ record.expiresAtUnixSecs
  dialable : hasDiscoveryDialableDirectAddrs record = true
  foreign : book.localNodeId ≠ some record.nodeId

theorem samplePeers_spec {request : SampleRequest}
    (listed : record ∈ (book.samplePeers request now).1) :
    book.Vouches now record ∧ record.nodeId ∈ book.windowIds request.requester
      (book.refreshSampleSnapshot now request.shuffleIds) := by
  simp only [samplePeers] at listed
  split at listed
  · cases listed
  obtain ⟨entry, taken, rfl⟩ := List.mem_map.mp ((request.shuffleRecords.perm _).mem_iff.mp listed)
  obtain ⟨found, accepted⟩ := List.mem_filter.mp (List.mem_of_mem_take taken)
  obtain ⟨nodeId, inWindow, found⟩ := List.mem_filterMap.mp found
  obtain rfl := book.keyed found
  simp only [isSampleEligible, DiscoveryEntry.isExpired, Bool.and_eq_true, bne_iff_ne,
    Bool.not_eq_true', decide_eq_false_iff_not, not_lt] at accepted
  obtain ⟨⟨⟨⟨foreign, unexpired⟩, confirmed⟩, dialable⟩, _⟩ := accepted
  exact ⟨⟨⟨entry, found, rfl, confirmed⟩, unexpired, dialable, foreign⟩,
    (List.mem_filter.mp inWindow).1⟩

section

variable {snapshot : SampleSnapshot} {shuffle : Shuffle NodeId}

theorem length_windowIds_le (snapshot : SampleSnapshot) :
    (book.windowIds requester snapshot).length ≤ book.sampleWindow :=
  (List.length_take_le _ _).trans (Nat.min_le_left _ _)

/-- While one window covers the snapshot, every requester's window is all of it. -/
theorem mem_windowIds (covers : snapshot.nodeIds.length ≤ book.sampleWindow) :
    nodeId ∈ book.windowIds requester snapshot ↔ nodeId ∈ snapshot.nodeIds := by
  rw [windowIds, Nat.min_eq_right covers, List.take_of_length_le (by simp), List.mem_rotate]

theorem refreshSampleSnapshot_epoch :
    (book.refreshSampleSnapshot now shuffle).epoch = now / discoveryDisclosureEpoch := by
  unfold refreshSampleSnapshot
  dsimp only
  split
  next held =>
    have same := of_decide_eq_true (Option.filter_eq_some_iff.mp held).2
    split <;> exact same
  · rfl

/-- Within an epoch no window loses an id: a snapshot that one window covers still fits one
window after it grew, and a longer one stays as it is. -/
theorem windowIds_refresh (held : book.sampleSnapshot = some snapshot)
    (same : snapshot.epoch = now / discoveryDisclosureEpoch)
    (shown : nodeId ∈ book.windowIds requester snapshot) :
    nodeId ∈ book.windowIds requester (book.refreshSampleSnapshot now shuffle) := by
  simp only [refreshSampleSnapshot, held, Option.filter_some, same, decide_true, if_true]
  split
  next grows =>
    have covers : snapshot.nodeIds.length ≤ book.sampleWindow := by omega
    refine (mem_windowIds ?_).mpr (List.mem_append_left _ ((mem_windowIds covers).mp shown))
    have taken := List.length_take_le (book.sampleWindow - snapshot.nodeIds.length)
      (book.sampleCandidates now snapshot.nodeIds shuffle)
    rw [List.length_append]
    omega
  · exact shown

end

/-- The window that the requester has reached in the epoch. -/
def reached (book : DiscoveryBook) (requester epoch : Nat) : Finset NodeId :=
  (book.sampleSnapshot.filter (·.epoch = epoch)).elim ∅ (book.windowIds requester · |>.toFinset)

theorem reached_card_le : (book.reached requester epoch).card ≤ book.sampleWindow := by
  unfold reached
  cases book.sampleSnapshot.filter (·.epoch = epoch) with
  | none => exact Nat.zero_le _
  | some snapshot => exact (List.toFinset_card_le _).trans (length_windowIds_le snapshot)

theorem reached_samplePeers (request : SampleRequest)
    (same : now / discoveryDisclosureEpoch = epoch) :
    (book.samplePeers request now).2.reached requester epoch =
      (book.windowIds requester (book.refreshSampleSnapshot now request.shuffleIds)).toFinset := by
  simp only [reached, samplePeers, Option.filter_some, refreshSampleSnapshot_epoch, same, decide_true]
  rfl

theorem shownBy_subset (same : now / discoveryDisclosureEpoch = epoch) (event : BookEvent) :
    book.shownBy requester epoch now event ⊆ (book.apply now event).reached requester epoch := by
  intro nodeId shown
  cases event with
  | samplePeers request =>
    simp only [shownBy] at shown
    split at shown
    next asked =>
      rw [apply, reached_samplePeers request same, ← asked.1]
      obtain ⟨record, listed, rfl⟩ := List.mem_map.mp (List.mem_toFinset.mp shown)
      exact List.mem_toFinset.mpr (samplePeers_spec listed).2
    · cases shown
  | _ => cases shown

theorem reached_subset (same : now / discoveryDisclosureEpoch = epoch) (event : BookEvent) :
    book.reached requester epoch ⊆ (book.apply now event).reached requester epoch := by
  cases event with
  | samplePeers request =>
    intro nodeId member
    rw [apply, reached_samplePeers request same]
    unfold reached at member
    cases held : book.sampleSnapshot.filter (·.epoch = epoch) with
    | none =>
      rw [held] at member
      cases member
    | some snapshot =>
      rw [held] at member
      obtain ⟨held, isEpoch⟩ := Option.filter_eq_some_iff.mp held
      exact List.mem_toFinset.mpr (windowIds_refresh held
        ((of_decide_eq_true isEpoch).trans same.symm) (List.mem_toFinset.mp member))
  | markDialSuccess nodeId authenticatedAddr =>
    simp only [apply, markDialSuccess]
    split <;> exact Finset.Subset.rfl
  | _ => exact Finset.Subset.rfl

theorem sampleWindow_apply (event : BookEvent) :
    (book.apply now event).sampleWindow = book.sampleWindow := by
  cases event with
  | markDialSuccess nodeId authenticatedAddr =>
    simp only [apply, markDialSuccess]
    split <;> rfl
  | _ => rfl

theorem shownBy_eq_empty (other : now / discoveryDisclosureEpoch ≠ epoch) (event : BookEvent) :
    book.shownBy requester epoch now event = ∅ := by
  cases event with
  | samplePeers request => exact if_neg fun asked => other asked.2
  | _ => rfl

theorem disclosed_late (late : ∀ event ∈ events, epoch < event.1 / discoveryDisclosureEpoch) :
    disclosed requester epoch book events = ∅ := by
  induction events generalizing book with
  | nil => rfl
  | cons first rest ih =>
    obtain ⟨first, rest⟩ := List.forall_mem_cons.mp late
    rw [disclosed, shownBy_eq_empty first.ne', ih rest, Finset.union_empty]

/-- The ids shown in an epoch lie in one set of a window's size, which also holds the window
that an unfinished epoch has reached. -/
theorem exists_shown (book : DiscoveryBook)
    (ordered : events.Pairwise fun earlier later => earlier.1 ≤ later.1) :
    ∃ shown : Finset NodeId, shown.card ≤ book.sampleWindow ∧
      disclosed requester epoch book events ⊆ shown ∧
      ((∀ event ∈ events, epoch ≤ event.1 / discoveryDisclosureEpoch) →
        book.reached requester epoch ⊆ shown) := by
  induction events generalizing book with
  | nil => exact ⟨_, reached_card_le, Finset.empty_subset _, fun _ => Finset.Subset.rfl⟩
  | cons first rest ih =>
    obtain ⟨now, event⟩ := first
    obtain ⟨later, ordered⟩ := List.pairwise_cons.mp ordered
    obtain ⟨shown, card, covered, grows⟩ := ih (book.apply now event) ordered
    rw [sampleWindow_apply] at card
    have epochs (member : Nat × BookEvent) (listed : member ∈ rest) :
        now / discoveryDisclosureEpoch ≤ member.1 / discoveryDisclosureEpoch :=
      Nat.div_le_div_right (later member listed)
    rcases lt_trichotomy (now / discoveryDisclosureEpoch) epoch with early | same | past
    · refine ⟨shown, card, ?_, fun all => ?_⟩
      · rwa [disclosed, shownBy_eq_empty early.ne, Finset.empty_union]
      · exact absurd (all _ (List.mem_cons_self ..)) early.not_ge
    · have grows := grows (same ▸ epochs)
      exact ⟨shown, card, Finset.union_subset ((shownBy_subset same event).trans grows) covered,
        fun _ => (reached_subset same event).trans grows⟩
    · refine ⟨_, reached_card_le, ?_, fun _ => Finset.Subset.rfl⟩
      rw [disclosed, shownBy_eq_empty past.ne',
        disclosed_late fun member listed => past.trans_le (epochs member listed)]
      exact Finset.empty_subset _

theorem disclosed_card_le (book : DiscoveryBook) (events : List (Nat × BookEvent))
    (ordered : events.Pairwise fun earlier later => earlier.1 ≤ later.1) (requester epoch : Nat) :
    (disclosed requester epoch book events).card ≤ book.sampleWindow ∧
      book.sampleWindow ≤ maxDiscoveryRecordsPerResponse ∧
      ∀ (asked : DiscoveryBook) request now, ∀ record ∈ (asked.samplePeers request now).1,
        asked.Vouches now record := by
  obtain ⟨shown, card, covered, _⟩ := exists_shown book ordered
  exact ⟨(Finset.card_le_card covered).trans card, Nat.min_le_right _ _,
    fun _ _ _ _ listed => (samplePeers_spec listed).1⟩

def emptyBook : DiscoveryBook :=
  ⟨∅, 3, none, fun requester epoch => requester + epoch, none, 0, by simp⟩

def publicAddr : SocketAddr := ⟨.v4 0x08080808#32, 8233⟩

def ask (excludeNodeIds : List NodeId) : BookEvent :=
  .samplePeers ⟨8, [], excludeNodeIds, 7, ⟨id, fun _ => .refl _⟩, ⟨id, fun _ => .refl _⟩⟩

/-- Five records are stored, and a requester asks again without what it was shown. -/
def firstEvents : List (Nat × BookEvent) :=
  (List.range 5).map (fun nodeId =>
    (5, .storeRecord ⟨nodeId, [publicAddr], [], 1, 100⟩ [publicAddr] [])) ++
    [(9, ask []), (10, ask [2, 3, 4])]

theorem disclosed_card_le_firstEvents : disclosed 7 0 emptyBook firstEvents = {2, 3, 4} ∧
    (disclosed 7 0 emptyBook firstEvents).card ≤ emptyBook.sampleWindow :=
  ⟨by decide +kernel, (disclosed_card_le emptyBook firstEvents (by decide +kernel) 7 0).1⟩

end DiscoveryBook

end Zakura.Discovery
