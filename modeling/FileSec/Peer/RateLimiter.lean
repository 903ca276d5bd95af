import FileSec.Lib.Runs
import FileSec.Lib.Table
import FileSec.Manifest

/-!
# The back-off of failing peers

The listener's table of failed handshakes (`concurrency.rs`): who keeps failing is refused for longer and longer, and the
table is bounded, so that a peer with many addresses cannot fill the memory.  An `Account` says of a key how often and when
it has failed since its record was started anew; the table holds what follows from the accounts (`Watched.Sound`), and
`rate_limiter` says what this means for who is refused.
-/

namespace FileSec.Peer

/-! ### Addresses -/

/-- `IpAddr` -/
inductive IpAddr where
  | v4 (address : BitVec 32)
  | v6 (address : BitVec 128)
  deriving DecidableEq

/-- `Ipv6Addr::to_ipv4_mapped`, for the addresses `::ffff:a.b.c.d`. -/
def toIpv4Mapped (address : BitVec 128) : Option (BitVec 32) :=
  if address.extractLsb' 32 96 = 0xffff then some (address.extractLsb' 0 32) else none

/-- `PeerKey` -/
inductive PeerKey where
  | v4 (address : BitVec 32)
  | v6Prefix64 (start : BitVec 64)
  deriving DecidableEq

/-- `PeerKey::of` -/
def PeerKey.of : IpAddr → PeerKey
  | .v4 address => .v4 address
  | .v6 address =>
    match toIpv4Mapped address with
    | some mapped => .v4 mapped
    | none => .v6Prefix64 (address.extractLsb' 64 64)

/-! ### Durations, in nanoseconds -/

/-- `Duration::from_secs` -/
def fromSecs (secs : Nat) : Nat := secs * 10 ^ 9

/-- `FAILURE_THRESHOLD` -/
def failureThreshold : Nat := 5

/-- `BASE_BACKOFF` -/
def baseBackoff : Nat := fromSecs 1

/-- `MAX_BACKOFF` -/
def maxBackoff : Nat := fromSecs 60

/-- `FORGET_AFTER` -/
def forgetAfter : Nat := fromSecs 300

/-- `MAX_TRACKED_PEERS` -/
def maxTrackedPeers : Nat := 4096

/-- `1u32.checked_shl` -/
def checkedShlOne (n : Nat) : Option Nat := if n < 32 then some (2 ^ n % 2 ^ 32) else none

/-- `Duration::checked_mul` -/
def checkedMul (d n : Nat) : Option Nat := if d * n ≤ fromSecs (2 ^ 64 - 1) + (10 ^ 9 - 1) then some (d * n) else none

/-- The back-off after `failures` failures, from the threshold on. -/
def backoffOf (failures : Nat) : Nat :=
  let excess := failures - failureThreshold
  min ((checkedMul baseBackoff ((checkedShlOne (min excess 16)).getD u32Max)).getD maxBackoff) maxBackoff

/-! ### The table -/

/-- `Record` -/
structure Record where
  failures : Nat
  blockedUntil : Option Nat
  lastSeen : Nat
  deriving DecidableEq

/-- `sort_unstable_by_key` by the first component: the result is sorted, and the order of equal keys is left open. -/
structure AgeSort where
  sort : List (Nat × PeerKey) → List (Nat × PeerKey)
  perm : ∀ l, (sort l).Perm l
  sorted : ∀ l, (sort l).Pairwise fun a b => a.1 ≤ b.1

/-- One of them keeps the order of equal keys. -/
def AgeSort.stable : AgeSort where
  sort l := l.mergeSort fun a b => a.1 ≤ b.1
  perm l := List.mergeSort_perm l _
  sorted l := by
    refine (List.pairwise_mergeSort (fun a b c hab hbc => ?_) (fun a b => ?_) l).imp fun h => of_decide_eq_true h
    · exact decide_eq_true (le_trans (of_decide_eq_true hab) (of_decide_eq_true hbc))
    · simpa using Nat.le_total a.1 b.1

/-- `RateLimiter` -/
structure RateLimiter where
  peers : AList fun _ : PeerKey => Record

namespace RateLimiter

/-- `RateLimiter::new` -/
def new : RateLimiter := ⟨∅⟩

/-- Whether a connection of a peer should be accepted. -/
def verdict (l : RateLimiter) (key : PeerKey) (now : Nat) : Bool :=
  match l.peers.lookup key with
  | some record =>
    match record.blockedUntil with
    | some blockedUntil => blockedUntil ≤ now
    | none => true
  | none => true

/-- `RateLimiter::allow` -/
def allow (l : RateLimiter) (ip : IpAddr) (now : Nat) : Bool := l.verdict (.of ip) now

/-- `RateLimiter::prune` -/
def prune (l : RateLimiter) (now : Nat) : RateLimiter :=
  ⟨Table.retain (fun _ record => now - record.lastSeen < forgetAfter) l.peers⟩

/-- The records with their keys, by when they were last seen. -/
def byAge (l : RateLimiter) : List (Nat × PeerKey) := l.peers.entries.map fun e => (e.2.lastSeen, e.1)

/-- The keys of the least recently seen eighth. -/
def oldest (l : RateLimiter) (order : AgeSort) : List PeerKey :=
  ((order.sort l.byAge).take (maxTrackedPeers / 8)).map Prod.snd

/-- `RateLimiter::make_room` -/
def makeRoom (l : RateLimiter) (now : Nat) (order : AgeSort) : RateLimiter :=
  let l := l.prune now
  if Table.size l.peers < maxTrackedPeers then l else ⟨Table.eraseAll (l.oldest order) l.peers⟩

/-- The entry of a key, or a new one. -/
def entry (l : RateLimiter) (key : PeerKey) (now : Nat) : Record := (l.peers.lookup key).getD ⟨0, none, now⟩

end RateLimiter

/-- A record after one more failure. -/
def Record.fail (record : Record) (now : Nat) : Record :=
  let failures := min (record.failures + 1) u32Max
  { failures
    blockedUntil := if failures ≥ failureThreshold then some (now + backoffOf failures) else record.blockedUntil
    lastSeen := now }

namespace RateLimiter

/-- `RateLimiter::record_failure`, with the sorting that making room may need. -/
def recordFailure (l : RateLimiter) (ip : IpAddr) (now : Nat) (order : AgeSort) : RateLimiter :=
  let key := PeerKey.of ip
  let l := if key ∉ l.peers ∧ Table.size l.peers ≥ maxTrackedPeers then l.makeRoom now order else l
  ⟨l.peers.insert key ((l.entry key now).fail now)⟩

/-- `RateLimiter::record_success` -/
def recordSuccess (l : RateLimiter) (ip : IpAddr) : RateLimiter := ⟨l.peers.erase (.of ip)⟩

end RateLimiter

/-- A call of the limiter. -/
inductive RateCall where
  | allow (ip : IpAddr)
  | recordFailure (ip : IpAddr) (order : AgeSort)
  | recordSuccess (ip : IpAddr)
  | prune

/-- A call and the time at which it is made. -/
structure RateEvent where
  now : Nat
  call : RateCall

/-- The key that a call is about; pruning is about none. -/
def RateCall.key : RateCall → Option PeerKey
  | .allow ip => some (.of ip)
  | .recordFailure ip _ => some (.of ip)
  | .recordSuccess ip => some (.of ip)
  | .prune => none

/-- The limiter after a call; asking it changes nothing. -/
def RateLimiter.step (l : RateLimiter) (e : RateEvent) : RateLimiter :=
  match e.call with
  | .allow _ => l
  | .recordFailure ip order => l.recordFailure ip e.now order
  | .recordSuccess ip => l.recordSuccess ip
  | .prune => l.prune e.now

/-! ### Accounts -/

/-- The failures of a key since its record was started anew, and the latest of them. -/
structure Account where
  failures : Nat
  latest : Nat

/-- The account after one more failure. -/
def Account.fail (account : Option Account) (now : Nat) : Account := ⟨(account.map (·.failures)).getD 0 + 1, now⟩

/-- Until when the key is refused: for the base interval from the latest failure on, doubled with each failure from the
threshold on, up to the cap. -/
def Account.blockedUntil (a : Account) : Option Nat :=
  if failureThreshold ≤ a.failures then
    some (a.latest + min (2 ^ (a.failures - failureThreshold)) (maxBackoff / baseBackoff) * baseBackoff)
  else none

/-- The record that is kept of an account. -/
def Account.record (a : Account) : Record := ⟨min a.failures u32Max, a.blockedUntil, a.latest⟩

/-- The account once those whose latest failure is long past are forgotten. -/
def Account.remembered (account : Option Account) (now : Nat) : Option Account :=
  account.filter fun a => now - a.latest < forgetAfter

/-- The limiter, and an account for each key that has failed since its record was started anew. -/
structure Watched where
  limiter : RateLimiter
  accounts : PeerKey → Option Account

/-- Nothing has happened. -/
def Watched.new : Watched := ⟨.new, fun _ => none⟩

/-- The failure of an address without an account has to make room in the table. -/
def Watched.Crowded (w : Watched) (ip : IpAddr) : Prop :=
  (w.accounts (.of ip)).isNone ∧ maxTrackedPeers ≤ Table.size w.limiter.peers

instance (w : Watched) (ip : IpAddr) : Decidable (w.Crowded ip) := inferInstanceAs (Decidable (_ ∧ _))

/-- The key is among those that have to go where forgetting leaves the table full. -/
def Watched.Ousted (w : Watched) (order : AgeSort) (now : Nat) (key : PeerKey) : Prop :=
  maxTrackedPeers ≤ Table.size (w.limiter.prune now).peers ∧ key ∈ (w.limiter.prune now).oldest order

instance (w : Watched) (order : AgeSort) (now : Nat) (key : PeerKey) : Decidable (w.Ousted order now key) :=
  inferInstanceAs (Decidable (_ ∧ _))

/-- A failure is counted, a success ends the account of its key, and pruning forgets the old ones.  Where a new key has to
make room, the old ones are forgotten too, and those of the least recently seen eighth end if that is not enough. -/
def Watched.step (w : Watched) (e : RateEvent) : Watched where
  limiter := w.limiter.step e
  accounts key :=
    match e.call with
    | .allow _ => w.accounts key
    | .recordSuccess ip => if PeerKey.of ip = key then none else w.accounts key
    | .prune => Account.remembered (w.accounts key) e.now
    | .recordFailure ip order =>
      if PeerKey.of ip = key then some (.fail (w.accounts key) e.now)
      else if ¬ w.Crowded ip then w.accounts key
      else if w.Ousted order e.now key then none
      else Account.remembered (w.accounts key) e.now

/-- What the calls come to. -/
def watch (events : List RateEvent) : Watched := Runs.run Watched.step .new events

/-! ### Back-offs -/

private theorem two_pow_le_cap {m n : Nat} (hm : 6 ≤ m) (hn : 6 ≤ n) : min (2 ^ m) 60 = min (2 ^ n) 60 := by
  have h (i : Nat) (hi : 6 ≤ i) : 60 ≤ 2 ^ i := le_trans (by decide) (Nat.pow_le_pow_right (by decide) hi)
  rw [Nat.min_eq_right (h m hm), Nat.min_eq_right (h n hn)]

/-- The back-off doubles up to the cap, and its computation does not overflow. -/
private theorem backoffOf_eq (n : Nat) :
    backoffOf n = min (2 ^ (n - failureThreshold)) (maxBackoff / baseBackoff) * baseBackoff := by
  have hcap : maxBackoff / baseBackoff = 60 := by decide
  have hmax : maxBackoff = 60 * baseBackoff := by decide
  have hbase : baseBackoff = 10 ^ 9 := by decide
  unfold backoffOf
  generalize n - failureThreshold = excess
  have hpow : 2 ^ min excess 16 ≤ 2 ^ 16 := Nat.pow_le_pow_right (by decide) (Nat.min_le_right _ _)
  have hshl : checkedShlOne (min excess 16) = some (2 ^ min excess 16) := by
    unfold checkedShlOne
    rw [if_pos (by omega), Nat.mod_eq_of_lt (by omega)]
  have hmul : checkedMul baseBackoff (2 ^ min excess 16) = some (baseBackoff * 2 ^ min excess 16) := by
    unfold checkedMul fromSecs
    rw [hbase, if_pos (by omega)]
  dsimp only
  rw [hshl, Option.getD_some, hmul, Option.getD_some, hmax, Nat.mul_comm baseBackoff, Nat.mul_min_mul_right,
    Nat.mul_div_cancel _ (by omega)]
  rcases Nat.lt_or_ge excess 17 with h | h
  · rw [Nat.min_eq_left (show excess ≤ 16 by omega)]
  · rw [two_pow_le_cap (n := excess) (by omega) (by omega)]

/-- Counting no further than `u32::MAX` does not change the back-off. -/
private theorem backoffOf_min (n : Nat) : backoffOf (min n u32Max) = backoffOf n := by
  have hcap : maxBackoff / baseBackoff = 60 := by decide
  have hmax : u32Max = 4294967295 := by decide
  have hthreshold : failureThreshold = 5 := rfl
  rw [backoffOf_eq, backoffOf_eq, hcap]
  rcases Nat.le_total n u32Max with h | h
  · rw [Nat.min_eq_left h]
  · rw [Nat.min_eq_right h, two_pow_le_cap (m := u32Max - failureThreshold) (n := n - failureThreshold) (by omega)
      (by omega)]

/-- A block is over long before the record is forgotten. -/
private theorem Account.blockedUntil_le {a : Account} {t : Nat} (h : a.blockedUntil = some t) :
    t ≤ a.latest + maxBackoff := by
  have hmax : maxBackoff = maxBackoff / baseBackoff * baseBackoff := by decide
  unfold Account.blockedUntil at h
  split at h
  · rw [Option.some.injEq] at h
    have hle := Nat.mul_le_mul_right baseBackoff
      (Nat.min_le_right (2 ^ (a.failures - failureThreshold)) (maxBackoff / baseBackoff))
    omega
  · cases h

/-- The record of an account follows its failures. -/
private theorem fail_record (account : Option Account) (now : Nat) :
    ((account.map Account.record).getD ⟨0, none, now⟩).fail now = (Account.fail account now).record := by
  have hmax : u32Max = 4294967295 := by decide
  have hthreshold : failureThreshold = 5 := rfl
  have hfail (n : Nat) (before : Option Nat) (h : n + 1 < failureThreshold → before = none) :
      (Record.mk (min n u32Max) before 0).fail now = (Account.mk (n + 1) now).record := by
    have hcount : min (min n u32Max + 1) u32Max = min (n + 1) u32Max := by omega
    unfold Record.fail Account.record Account.blockedUntil
    simp only [hcount]
    by_cases hn : failureThreshold ≤ n + 1
    · rw [if_pos (by omega), if_pos hn, backoffOf_min, backoffOf_eq]
    · rw [if_neg (by omega), if_neg hn, h (by omega)]
  cases account with
  | none => exact hfail 0 none fun _ => rfl
  | some a =>
    refine hfail a.failures a.blockedUntil fun h => ?_
    unfold Account.blockedUntil
    exact if_neg (by omega)

/-! ### Making room -/

namespace RateLimiter

variable {l : RateLimiter} {key : PeerKey} {now : Nat} {order : AgeSort} {record : Record}

theorem prune_lookup : (l.prune now).peers.lookup key =
    (l.peers.lookup key).filter fun record => now - record.lastSeen < forgetAfter := Table.lookup_retain

/-- A record that pruning removes has not been seen for long. -/
private theorem expired_of_prune (h : l.peers.lookup key = some record) (hnone : (l.prune now).peers.lookup key = none) :
    record.lastSeen + forgetAfter ≤ now := by
  have hforget : 0 < forgetAfter := by decide
  rw [prune_lookup, h, Option.filter_eq_none_iff] at hnone
  have hold := hnone record rfl
  rw [decide_eq_true_eq] at hold
  omega

/-- Pruning keeps a record as it is or removes it. -/
private theorem prune_lookup_or :
    (l.prune now).peers.lookup key = l.peers.lookup key ∨ (l.prune now).peers.lookup key = none := by
  rw [prune_lookup]
  cases l.peers.lookup key with
  | none => exact Or.inr rfl
  | some record =>
    by_cases h : now - record.lastSeen < forgetAfter
    · exact Or.inl (by simp [Option.filter, h])
    · exact Or.inr (by simp [Option.filter, h])

private theorem byAge_keys : l.byAge.map Prod.snd = l.peers.keys := by
  unfold byAge AList.keys List.keys
  rw [List.map_map]
  rfl

private theorem sorted_keys_perm : ((order.sort l.byAge).map Prod.snd).Perm l.peers.keys :=
  byAge_keys ▸ (order.perm l.byAge).map Prod.snd

private theorem oldest_sublist : (l.oldest order).Sublist ((order.sort l.byAge).map Prod.snd) :=
  (List.take_sublist _ _).map Prod.snd

private theorem oldest_nodup : (l.oldest order).Nodup :=
  oldest_sublist.nodup (sorted_keys_perm.nodup_iff.2 l.peers.keys_nodup)

private theorem mem_of_oldest (h : key ∈ l.oldest order) : key ∈ l.peers :=
  AList.mem_keys.2 (sorted_keys_perm.subset (oldest_sublist.subset h))

private theorem oldest_length (h : maxTrackedPeers ≤ Table.size l.peers) :
    (l.oldest order).length = maxTrackedPeers / 8 := by
  have hlen : (order.sort l.byAge).length = Table.size l.peers := by
    have hperm : ((order.sort l.byAge).map Prod.snd).Perm l.peers.keys := sorted_keys_perm
    have hkeys := hperm.length_eq
    rwa [List.length_map] at hkeys
  unfold oldest
  rw [List.length_map, List.length_take, hlen]
  omega

/-- The age of a key in the sorted list is that of its record. -/
private theorem mem_byAge {seen : Nat} :
    (seen, key) ∈ l.byAge ↔ ∃ record ∈ l.peers.lookup key, record.lastSeen = seen := by
  unfold byAge
  rw [List.mem_map]
  constructor
  · rintro ⟨⟨k, record⟩, hmem, heq⟩
    rw [Prod.mk.injEq] at heq
    obtain ⟨hseen, rfl⟩ := heq
    exact ⟨record, AList.mem_lookup_iff.2 hmem, hseen⟩
  · rintro ⟨record, hrecord, rfl⟩
    exact ⟨⟨key, record⟩, AList.mem_lookup_iff.1 hrecord, rfl⟩

/-- No key of the oldest eighth has been seen after one that is not in it. -/
private theorem oldest_le {key' : PeerKey} {record' : Record} (h : key ∈ l.oldest order)
    (hrecord : record ∈ l.peers.lookup key) (h' : key' ∉ l.oldest order) (hrecord' : record' ∈ l.peers.lookup key') :
    record.lastSeen ≤ record'.lastSeen := by
  have hsorted := order.sorted l.byAge
  rw [← List.take_append_drop (maxTrackedPeers / 8) (order.sort l.byAge), List.pairwise_append] at hsorted
  obtain ⟨⟨seen, k⟩, hold, rfl⟩ := List.mem_map.1 h
  have hseen : record.lastSeen = seen := by
    obtain ⟨r, hr, hseen⟩ := mem_byAge.1 ((order.perm l.byAge).subset (List.mem_of_mem_take hold))
    rw [Option.mem_unique hrecord hr, hseen]
  have hnew : (record'.lastSeen, key') ∈ (order.sort l.byAge).drop (maxTrackedPeers / 8) := by
    have hmem := (order.perm l.byAge).symm.subset (mem_byAge.2 ⟨record', hrecord', rfl⟩)
    rw [← List.take_append_drop (maxTrackedPeers / 8) (order.sort l.byAge), List.mem_append] at hmem
    rcases hmem with hmem | hmem
    · exact absurd (List.mem_map.2 ⟨_, hmem, rfl⟩) h'
    · exact hmem
  rw [hseen]
  exact hsorted.2.2 _ hold _ hnew

/-- The event removes the record of the key to make room: a new key has failed, the table was full of records that have
not expired, and the key was among the least recently seen eighth. -/
structure Evicts (l : RateLimiter) (e : RateEvent) (key : PeerKey) : Prop where
  call : ∃ ip order, e.call = .recordFailure ip order ∧ PeerKey.of ip ∉ l.peers
  full : Table.size l.peers = maxTrackedPeers
  unexpired : ∀ k, ∀ record ∈ l.peers.lookup k, e.now - record.lastSeen < forgetAfter
  eighth : ∃ oldest : List PeerKey, oldest.Nodup ∧ oldest.length = maxTrackedPeers / 8 ∧ key ∈ oldest ∧
    (∀ k ∈ oldest, k ∈ l.peers) ∧ ∀ k ∈ oldest, ∀ record ∈ l.peers.lookup k, ∀ k' ∉ oldest,
      ∀ record' ∈ l.peers.lookup k', record.lastSeen ≤ record'.lastSeen

/-- Making room prunes, and removes the oldest of a table that this leaves full. -/
private theorem makeRoom_lookup_eq : (l.makeRoom now order).peers.lookup key =
    if maxTrackedPeers ≤ Table.size (l.prune now).peers ∧ key ∈ (l.prune now).oldest order then none
    else (l.prune now).peers.lookup key := by
  unfold makeRoom
  dsimp only
  by_cases hroom : Table.size (l.prune now).peers < maxTrackedPeers
  · rw [if_pos hroom, if_neg fun h => absurd h.1 (by omega)]
  · rw [if_neg hroom, Table.lookup_eraseAll]
    by_cases hold : key ∈ (l.prune now).oldest order
    · rw [if_pos hold, if_pos ⟨by omega, hold⟩]
    · rw [if_neg hold, if_neg fun h => hold h.2]

/-- Making room keeps a record as it is or removes it. -/
private theorem makeRoom_lookup :
    (l.makeRoom now order).peers.lookup key = l.peers.lookup key ∨ (l.makeRoom now order).peers.lookup key = none := by
  rw [makeRoom_lookup_eq]
  split
  · exact Or.inr rfl
  · exact prune_lookup_or

/-- A record that making room removes has expired, or was among the oldest of a table that pruning has left full. -/
private theorem makeRoom_removes (h : l.peers.lookup key = some record)
    (hnone : (l.makeRoom now order).peers.lookup key = none) :
    record.lastSeen + forgetAfter ≤ now ∨
      (maxTrackedPeers ≤ Table.size (l.prune now).peers ∧ key ∈ (l.prune now).oldest order) := by
  rw [makeRoom_lookup_eq] at hnone
  split at hnone
  · exact Or.inr ‹_›
  · exact Or.inl (expired_of_prune h hnone)

/-- A table that pruning leaves full has lost nothing. -/
private theorem prune_lookup_of_full (hsize : Table.size l.peers ≤ maxTrackedPeers)
    (hfull : maxTrackedPeers ≤ Table.size (l.prune now).peers) :
    (∀ k, ∀ record ∈ l.peers.lookup k, now - record.lastSeen < forgetAfter) ∧
      ∀ k, (l.prune now).peers.lookup k = l.peers.lookup k := by
  have hle : Table.size (l.prune now).peers ≤ Table.size l.peers := Table.size_retain_le
  have hkept : Table.size (l.prune now).peers = Table.size l.peers := by omega
  have hall : ∀ k, ∀ record ∈ l.peers.lookup k, now - record.lastSeen < forgetAfter := by
    intro k record hrecord
    simpa using Table.retain_of_size hkept record hrecord
  refine ⟨hall, fun k => ?_⟩
  rw [prune_lookup]
  cases hk : l.peers.lookup k with
  | none => rfl
  | some record => exact Option.filter_eq_some_iff.2 ⟨rfl, by simpa using hall k record hk⟩

/-- A new key that fails at a full table evicts its oldest. -/
private theorem evicts_of_full {ip : IpAddr} (hsize : Table.size l.peers ≤ maxTrackedPeers)
    (hnew : PeerKey.of ip ∉ l.peers) (hfull : maxTrackedPeers ≤ Table.size (l.prune now).peers)
    (hold : key ∈ (l.prune now).oldest order) : l.Evicts ⟨now, .recordFailure ip order⟩ key := by
  obtain ⟨hall, hpruned⟩ := prune_lookup_of_full hsize hfull
  have hle : Table.size (l.prune now).peers ≤ Table.size l.peers := Table.size_retain_le
  have hmem (k : PeerKey) : k ∈ (l.prune now).peers ↔ k ∈ l.peers := by
    rw [← AList.lookup_isSome, ← AList.lookup_isSome, hpruned]
  refine ⟨⟨ip, order, rfl, hnew⟩, by omega, hall, _, oldest_nodup, oldest_length hfull, hold,
    fun k hk => (hmem k).1 (mem_of_oldest hk), ?_⟩
  intro k hk r hr k' hk' r' hr'
  rw [← hpruned] at hr hr'
  exact oldest_le hk hr hk' hr'

private theorem makeRoom_size (hsize : Table.size l.peers ≤ maxTrackedPeers) :
    Table.size (l.makeRoom now order).peers < maxTrackedPeers := by
  unfold makeRoom
  dsimp only
  split
  · assumption
  · have hle : Table.size (l.prune now).peers ≤ Table.size l.peers := Table.size_retain_le
    have hmem : ∀ k ∈ (l.prune now).oldest order, k ∈ (l.prune now).peers := fun _ hk => mem_of_oldest hk
    have herase := Table.size_eraseAll oldest_nodup hmem
    rw [oldest_length (by omega)] at herase
    have heighth : 0 < maxTrackedPeers / 8 := by decide
    show Table.size (Table.eraseAll ((l.prune now).oldest order) (l.prune now).peers) < maxTrackedPeers
    omega

/-- The table into which a failure is entered. -/
private theorem recordFailure_eq (l : RateLimiter) (ip : IpAddr) (now : Nat) (order : AgeSort) :
    ∃ l' : RateLimiter, l.recordFailure ip now order = ⟨l'.peers.insert (.of ip) ((l'.entry (.of ip) now).fail now)⟩ ∧
      ((l' = l ∧ (PeerKey.of ip ∈ l.peers ∨ Table.size l.peers < maxTrackedPeers)) ∨
        (l' = l.makeRoom now order ∧ PeerKey.of ip ∉ l.peers)) := by
  unfold recordFailure
  dsimp only
  split
  · rename_i h
    exact ⟨_, rfl, Or.inr ⟨rfl, h.1⟩⟩
  · rename_i h
    refine ⟨l, rfl, Or.inl ⟨rfl, ?_⟩⟩
    by_cases hmem : PeerKey.of ip ∈ l.peers
    · exact Or.inl hmem
    · refine Or.inr (Nat.lt_of_not_le fun hle => h ⟨hmem, hle⟩)

/-- What a failure leaves of another key. -/
private theorem recordFailure_lookup_of_ne {ip : IpAddr} (hkey : PeerKey.of ip ≠ key) :
    (l.recordFailure ip now order).peers.lookup key =
      if PeerKey.of ip ∉ l.peers ∧ Table.size l.peers ≥ maxTrackedPeers then (l.makeRoom now order).peers.lookup key
      else l.peers.lookup key := by
  unfold recordFailure
  dsimp only
  rw [AList.lookup_insert_ne (Ne.symm hkey)]
  split <;> rfl

/-- The table stays within its bound. -/
theorem step_size (e : RateEvent) (h : Table.size l.peers ≤ maxTrackedPeers) :
    Table.size (l.step e).peers ≤ maxTrackedPeers := by
  unfold step
  cases hcall : e.call with
  | allow ip => exact h
  | recordSuccess ip => exact le_trans Table.size_erase_le h
  | prune => exact le_trans Table.size_retain_le h
  | recordFailure ip order =>
    dsimp only
    obtain ⟨l', heq, hl'⟩ := recordFailure_eq l ip e.now order
    rw [heq]
    by_cases hmem : PeerKey.of ip ∈ l'.peers
    · rw [Table.size_insert_of_mem hmem]
      rcases hl' with ⟨rfl, -⟩ | ⟨rfl, -⟩
      · exact h
      · exact (makeRoom_size h).le
    · rw [Table.size_insert_of_notMem hmem]
      rcases hl' with ⟨rfl, hroom | hroom⟩ | ⟨rfl, -⟩
      · exact absurd hroom hmem
      · exact hroom
      · exact makeRoom_size h

/-- A call about another key keeps a record as it is or removes it. -/
theorem step_lookup_of_ne {e : RateEvent} (hkey : e.call.key ≠ some key) :
    (l.step e).peers.lookup key = l.peers.lookup key ∨ (l.step e).peers.lookup key = none := by
  unfold step
  cases hcall : e.call with
  | allow ip => exact Or.inl rfl
  | recordSuccess ip =>
    rw [hcall] at hkey
    exact Or.inl (AList.lookup_erase_ne fun heq => hkey (congrArg some heq.symm))
  | prune => exact prune_lookup_or
  | recordFailure ip order =>
    rw [hcall] at hkey
    dsimp only
    obtain ⟨l', heq, hl'⟩ := recordFailure_eq l ip e.now order
    rw [heq, AList.lookup_insert_ne fun heq => hkey (congrArg some heq.symm)]
    rcases hl' with ⟨rfl, -⟩ | ⟨rfl, -⟩
    · exact Or.inl rfl
    · exact makeRoom_lookup

/-- A record is removed by the success of its key, because it has expired, or to make room. -/
theorem step_removes {e : RateEvent} (hsize : Table.size l.peers ≤ maxTrackedPeers)
    (h : l.peers.lookup key = some record) (hnone : (l.step e).peers.lookup key = none) :
    (∃ ip, e.call = .recordSuccess ip ∧ PeerKey.of ip = key) ∨ record.lastSeen + forgetAfter ≤ e.now ∨
      l.Evicts e key := by
  obtain ⟨now, call⟩ := e
  cases call with
  | allow ip => exact absurd (h.symm.trans hnone) nofun
  | recordSuccess ip =>
    by_cases hkey : PeerKey.of ip = key
    · exact Or.inl ⟨ip, rfl, hkey⟩
    · have hsame : (l.step ⟨now, .recordSuccess ip⟩).peers.lookup key = l.peers.lookup key :=
        AList.lookup_erase_ne (Ne.symm hkey)
      rw [hsame, h] at hnone
      cases hnone
  | prune => exact Or.inr (Or.inl (expired_of_prune h hnone))
  | recordFailure ip order =>
    change (l.recordFailure ip now order).peers.lookup key = none at hnone
    obtain ⟨l', heq, hl'⟩ := recordFailure_eq l ip now order
    rw [heq] at hnone
    by_cases hkey : PeerKey.of ip = key
    · subst hkey
      rw [AList.lookup_insert] at hnone
      cases hnone
    · rw [AList.lookup_insert_ne (Ne.symm hkey)] at hnone
      rcases hl' with ⟨rfl, -⟩ | ⟨rfl, hnew⟩
      · rw [h] at hnone
        cases hnone
      · rcases makeRoom_removes h hnone with hold | ⟨hfull, hold⟩
        · exact Or.inr (Or.inl hold)
        · exact Or.inr (Or.inr (evicts_of_full hsize hnew hfull hold))

end RateLimiter

/-! ### Runs -/

namespace Watched

variable {w : Watched} {e : RateEvent} {key : PeerKey}

/-- The table is within its bound, and holds the records of the accounts. -/
structure Sound (w : Watched) : Prop where
  size : Table.size w.limiter.peers ≤ maxTrackedPeers
  records : ∀ key, w.limiter.peers.lookup key = (w.accounts key).map Account.record

/-- A key has a record while it has an account. -/
private theorem Sound.mem_iff (hw : w.Sound) : key ∈ w.limiter.peers ↔ (w.accounts key).isSome := by
  rw [← AList.lookup_isSome, hw.records, Option.isSome_map]

/-- A record is pruned when its account is forgotten. -/
private theorem Sound.pruned (hw : w.Sound) (now : Nat) :
    (w.limiter.prune now).peers.lookup key = (Account.remembered (w.accounts key) now).map Account.record := by
  rw [RateLimiter.prune_lookup, hw.records, Account.remembered]
  cases w.accounts key with
  | none => rfl
  | some a =>
    by_cases h : now - a.latest < forgetAfter
    · simp [Option.filter, Account.record, h]
    · simp [Option.filter, Account.record, h]

/-- A failure is entered into what is left of the record of its key, which is all of it. -/
private theorem Sound.failure {ip : IpAddr} {order : AgeSort} (hw : w.Sound) (now : Nat) :
    (w.limiter.recordFailure ip now order).peers.lookup (.of ip) =
      some (Account.fail (w.accounts (.of ip)) now).record := by
  obtain ⟨l', heq, hl'⟩ := RateLimiter.recordFailure_eq w.limiter ip now order
  have hrecord : l'.peers.lookup (.of ip) = (w.accounts (.of ip)).map Account.record := by
    rcases hl' with ⟨rfl, -⟩ | ⟨rfl, hnew⟩
    · exact hw.records _
    · have hnone := AList.lookup_eq_none.2 hnew
      rw [← hw.records]
      have hroom : (w.limiter.makeRoom now order).peers.lookup (.of ip) = w.limiter.peers.lookup (.of ip) ∨
          (w.limiter.makeRoom now order).peers.lookup (.of ip) = none := RateLimiter.makeRoom_lookup
      rcases hroom with h | h
      · exact h
      · rw [h, hnone]
  rw [heq, AList.lookup_insert, RateLimiter.entry, hrecord, fail_record]

/-- A failure leaves of another key what is left of its account. -/
private theorem Sound.failure_of_ne {ip : IpAddr} {order : AgeSort} (hw : w.Sound) (now : Nat)
    (hkey : PeerKey.of ip ≠ key) : (w.limiter.recordFailure ip now order).peers.lookup key =
      ((w.step ⟨now, .recordFailure ip order⟩).accounts key).map Account.record := by
  have hcrowded : w.Crowded ip ↔ PeerKey.of ip ∉ w.limiter.peers ∧ Table.size w.limiter.peers ≥ maxTrackedPeers := by
    unfold Watched.Crowded
    rw [hw.mem_iff, Option.not_isSome_iff_eq_none, Option.isNone_iff_eq_none]
  rw [RateLimiter.recordFailure_lookup_of_ne hkey, Watched.step]
  dsimp only
  rw [if_neg hkey]
  by_cases hfull : w.Crowded ip
  · rw [if_pos (hcrowded.1 hfull), if_neg (not_not.2 hfull), RateLimiter.makeRoom_lookup_eq]
    by_cases hout : w.Ousted order now key
    · rw [if_pos hout, if_pos (show _ ∧ _ from hout)]
      rfl
    · rw [if_neg hout, if_neg (show ¬ (_ ∧ _) from hout), hw.pruned]
  · rw [if_neg fun h => hfull (hcrowded.2 h), if_pos hfull, hw.records]

/-- Every call keeps the table sound. -/
theorem Sound.step (hw : w.Sound) (e : RateEvent) : (w.step e).Sound := by
  refine ⟨RateLimiter.step_size e hw.size, fun key => ?_⟩
  obtain ⟨now, call⟩ := e
  cases call with
  | allow ip => exact hw.records key
  | prune => exact hw.pruned now
  | recordSuccess ip =>
    show (w.limiter.peers.erase (.of ip)).lookup key =
      (if PeerKey.of ip = key then none else w.accounts key).map Account.record
    by_cases hkey : PeerKey.of ip = key
    · subst hkey
      rw [AList.lookup_erase, if_pos rfl]
      rfl
    · rw [AList.lookup_erase_ne (Ne.symm hkey), if_neg hkey, hw.records]
  | recordFailure ip order =>
    by_cases hkey : PeerKey.of ip = key
    · subst hkey
      have hown : (w.step ⟨now, .recordFailure ip order⟩).accounts (.of ip) =
          some (.fail (w.accounts (.of ip)) now) := if_pos rfl
      rw [hown]
      exact hw.failure now
    · exact hw.failure_of_ne now hkey

/-- The table is sound at the end of every run. -/
theorem sound_watch (events : List RateEvent) : (watch events).Sound :=
  Runs.run_inv Sound (fun _ e h => h.step e) ⟨Nat.zero_le _, fun _ => rfl⟩

/-- A key is refused exactly while its account blocks it. -/
theorem Sound.verdict_eq_false (hw : w.Sound) (now : Nat) :
    w.limiter.verdict key now = false ↔ ∃ a ∈ w.accounts key, failureThreshold ≤ a.failures ∧
      now < a.latest + min (2 ^ (a.failures - failureThreshold)) (maxBackoff / baseBackoff) * baseBackoff := by
  unfold RateLimiter.verdict
  rw [hw.records]
  cases w.accounts key with
  | none => simp
  | some a =>
    simp only [Option.map_some, Account.record, Account.blockedUntil, Option.mem_def, Option.some.injEq, exists_eq_left']
    by_cases h : failureThreshold ≤ a.failures
    · simp [h]
    · simp [h]

/-- A running block ends before its record expires. -/
private theorem Sound.lt_of_blocked (hw : w.Sound) {record : Record} {blockedUntil now : Nat}
    (h : w.limiter.peers.lookup key = some record) (hblocked : record.blockedUntil = some blockedUntil)
    (hnow : now < blockedUntil) : now < record.lastSeen + forgetAfter := by
  have hmax : maxBackoff < forgetAfter := by decide
  rw [hw.records, Option.map_eq_some_iff] at h
  obtain ⟨a, -, rfl⟩ := h
  have hle := Account.blockedUntil_le hblocked
  show now < a.latest + forgetAfter
  omega

/-- A record that has expired refuses nothing. -/
private theorem Sound.verdict_of_expired (hw : w.Sound) {record : Record} {now : Nat}
    (h : w.limiter.peers.lookup key = some record) (hold : record.lastSeen + forgetAfter ≤ now) :
    w.limiter.verdict key now = true := by
  unfold RateLimiter.verdict
  rw [h]
  dsimp only
  cases hblocked : record.blockedUntil with
  | none => rfl
  | some blockedUntil =>
    refine decide_eq_true (Nat.le_of_not_lt fun hlt => ?_)
    have := hw.lt_of_blocked h hblocked hlt
    omega

end Watched

/-- After every run of the limiter: its table is within its bound.  An address is refused exactly while it is at or past
the threshold of failures since the record of its key was started anew, from the latest of them on for the base interval
doubled with each further failure, up to the cap.  Pruning keeps every record whose block is running.  A record is started
anew by success, once it has expired, or when the least recently seen eighth of a full table of unexpired records makes
room for a new key; and only the last changes what a call about another key leaves of a verdict. -/
theorem rate_limiter (events : List RateEvent) :
    Table.size (watch events).limiter.peers ≤ maxTrackedPeers ∧
    (∀ ip now, (watch events).limiter.allow ip now = false ↔
      ∃ a ∈ (watch events).accounts (.of ip), failureThreshold ≤ a.failures ∧
        now < a.latest + min (2 ^ (a.failures - failureThreshold)) (maxBackoff / baseBackoff) * baseBackoff) ∧
    (∀ key record blockedUntil now, (watch events).limiter.peers.lookup key = some record →
      record.blockedUntil = some blockedUntil → now < blockedUntil →
        ((watch events).limiter.prune now).peers.lookup key = some record) ∧
    (∀ e key, ∀ a ∈ (watch events).accounts key, ((watch events).step e).accounts key = none →
      (∃ ip, e.call = .recordSuccess ip ∧ PeerKey.of ip = key) ∨ a.latest + forgetAfter ≤ e.now ∨
        (watch events).limiter.Evicts e key) ∧
    (∀ e key now, e.call.key ≠ some key → e.now ≤ now →
      ((watch events).limiter.step e).verdict key now ≠ (watch events).limiter.verdict key now →
        (watch events).limiter.Evicts e key) := by
  have hw := Watched.sound_watch events
  generalize watch events = w at hw
  refine ⟨hw.size, fun ip now => hw.verdict_eq_false now, ?_, ?_, ?_⟩
  · intro key record blockedUntil now h hblocked hnow
    have hlt := hw.lt_of_blocked h hblocked hnow
    have hforget : 0 < forgetAfter := by decide
    rw [RateLimiter.prune_lookup, h]
    exact Option.filter_eq_some_iff.2 ⟨rfl, decide_eq_true (by omega)⟩
  · intro e key a ha hnone
    have hrecord : w.limiter.peers.lookup key = some a.record := by
      rw [hw.records, Option.mem_def.1 ha]
      rfl
    refine RateLimiter.step_removes hw.size hrecord ?_
    have hafter := (hw.step e).records key
    rwa [hnone] at hafter
  · intro e key now hkey hnow hne
    rcases RateLimiter.step_lookup_of_ne (l := w.limiter) hkey with hsame | hnone
    · exact absurd (by unfold RateLimiter.verdict; rw [hsame]) hne
    · cases hrecord : w.limiter.peers.lookup key with
      | none => exact absurd (by unfold RateLimiter.verdict; rw [hnone, hrecord]) hne
      | some record =>
        rcases RateLimiter.step_removes hw.size hrecord hnone with ⟨ip, hcall, rfl⟩ | hold | hevicts
        · exact absurd (by rw [hcall]; rfl) hkey
        · have hbefore := hw.verdict_of_expired hrecord (hold.trans hnow)
          have hafter : (w.limiter.step e).verdict key now = true := by
            unfold RateLimiter.verdict
            rw [hnone]
          exact absurd (hafter.trans hbefore.symm) hne
        · exact hevicts

-- six failures of addresses of one /64 block it for two seconds; another is not concerned
example :
    let failure (n : Nat) : RateEvent := ⟨0, .recordFailure (.v6 (BitVec.ofNat 128 (2 ^ 125 + n))) .stable⟩
    let l := (watch ((List.range 6).map failure)).limiter
    l.allow (.v6 (BitVec.ofNat 128 (2 ^ 125 + 9))) (fromSecs 2 - 1) = false ∧
      l.allow (.v6 (BitVec.ofNat 128 (2 ^ 125 + 9))) (fromSecs 2) = true ∧
      l.allow (.v6 (BitVec.ofNat 128 (2 ^ 125 + 2 ^ 64))) 0 = true := by
  decide

end FileSec.Peer
