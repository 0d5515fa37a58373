import DogecoinCore.ByteStream
import DogecoinCore.Control
import DogecoinCore.Transaction
import Mathlib.Data.List.AList
import Mathlib.Data.List.Lex
import Mathlib.Data.List.Perm.Subperm
import Mathlib.Data.List.Sort
import Mathlib.Data.List.TakeWhile

/-! The wallet's transactions and the walk that marks a transaction together with what spends it,
`CWallet::AbandonTransaction`. It goes through `mapTxSpends`, a multimap ordered by outpoint, with
a range scan that starts at `lower_bound`. -/
namespace DogecoinCore
open List AList Option

/-- The bytes `memcmp` compares, in the order of memory. -/
def UInt256.data (h : UInt256) : List ℕ := (littleEndian 32 h.toNat).map UInt8.toNat

theorem littleEndian_injective (fitsN : n < 256 ^ k) (fitsM : m < 256 ^ k)
    (same : littleEndian k n = littleEndian k m) : n = m := by
  have readN := reads_littleEndian k n fitsN []
  have readM := reads_littleEndian k m fitsM []
  rw [same, readM] at readN
  simpa using readN.symm

theorem UInt256.data_injective (same : UInt256.data a = UInt256.data b) : a = b := by
  have bytes := map_injective_iff.2 (fun _ _ => UInt8.toNat_inj.1) same
  refine BitVec.eq_of_toNat_eq (littleEndian_injective ?_ ?_ bytes)
  · exact lt_of_lt_of_eq a.isLt (Nat.pow_mul 2 8 32)
  · exact lt_of_lt_of_eq b.isLt (Nat.pow_mul 2 8 32)

/-- `operator<` of `COutPoint`. -/
def COutPoint.less (a b : COutPoint) : Bool :=
  UInt256.data a.hash < UInt256.data b.hash ||
    (UInt256.data a.hash = UInt256.data b.hash && a.n < b.n)

private theorem COutPoint.hash_eq_of_between {a b : COutPoint} (low : a.less ⟨b.hash, 0⟩ = false)
    (high : b.less a = false) : a.hash = b.hash := by
  simp only [less, Bool.or_eq_false_iff, decide_eq_false_iff_not, not_lt] at low high
  exact UInt256.data_injective (le_antisymm high.1 low.1)

theorem COutPoint.not_less_first (o : COutPoint) : o.less ⟨o.hash, 0⟩ = false := by
  simp [less]

namespace Wallet
/-- The wallet transactions that spend an outpoint, in the order of the outpoints. -/
structure TxSpends where
  entries : List (COutPoint × UInt256)
  sorted : entries.Pairwise fun a b => b.1.less a.1 = false

namespace TxSpends
/-- `h` is spent by `spender`. -/
def Spends (s : TxSpends) (h spender : UInt256) : Prop := ∃ n, (⟨h, n⟩, spender) ∈ s.entries

/-- The range scan of the walks: from `lower_bound(COutPoint(start, 0))` on, as long as the
outpoint belongs to `now`. -/
def scan (s : TxSpends) (start now : UInt256) : List UInt256 :=
  ((s.entries.dropWhile fun e => e.1.less ⟨start, 0⟩).takeWhile fun e => e.1.hash = now).map
    Prod.snd

variable {s : TxSpends} {start now x : UInt256}

theorem spends_of_mem_scan (found : x ∈ s.scan start now) : s.Spends now x := by
  obtain ⟨⟨⟨hash, n⟩, _⟩, mem, rfl⟩ := List.mem_map.1 found
  have own := mem_takeWhile_imp mem
  obtain rfl : hash = now := by simpa using own
  exact ⟨n, (dropWhile_sublist _).mem ((takeWhile_sublist _).mem mem)⟩

variable {l : List (COutPoint × UInt256)} {e : COutPoint × UInt256} {key : COutPoint}

section
variable (sorted : l.Pairwise fun a b => b.1.less a.1 = false)
include sorted

private theorem mem_takeWhile_of_sorted
    (above : ∀ a ∈ l, a.1.less ⟨e.1.hash, 0⟩ = false) (mem : e ∈ l) :
    e ∈ l.takeWhile fun a => a.1.hash = e.1.hash := by
  induction l with
  | nil => cases mem
  | cons a l ih =>
    obtain ⟨before, rest⟩ := pairwise_cons.1 sorted
    rcases mem_cons.1 mem with rfl | later
    · simp
    have own := COutPoint.hash_eq_of_between (above a mem_cons_self) (before e later)
    rw [takeWhile_cons_of_pos (by simpa using own)]
    exact mem_cons_of_mem a (ih rest (fun b inside => above b (mem_cons_of_mem a inside)) later)

private theorem lowerBound_spec :
    ∀ a ∈ l.dropWhile fun e => e.1.less key, a.1.less key = false := by
  induction l with
  | nil => simp
  | cons a l ih =>
    obtain ⟨before, rest⟩ := pairwise_cons.1 sorted
    by_cases small : a.1.less key
    · rw [dropWhile_cons, if_pos small]
      exact ih rest
    rw [dropWhile_cons, if_neg small]
    intro b mem
    rcases mem_cons.1 mem with rfl | later
    · simpa using small
    -- `b` is not below `a`, and `a` is not below the key.
    have ordered := before b later
    simp only [COutPoint.less, Bool.or_eq_true, Bool.or_eq_false_iff, Bool.and_eq_true,
      decide_eq_true_eq, decide_eq_false_iff_not, not_lt, not_or, not_and,
      Bool.and_eq_false_iff] at small ordered ⊢
    refine ⟨small.1.trans ordered.1, ?_⟩
    by_cases same : UInt256.data b.1.hash = UInt256.data key.hash
    · right
      have hashes := le_antisymm (same ▸ ordered.1) small.1
      have outputs := ordered.2.resolve_left (fun ne => ne (same.trans hashes.symm))
      intro below
      rw [UInt32.lt_iff_toNat_lt] at below
      have first := small.2 hashes
      rw [UInt32.lt_iff_toNat_lt] at first outputs
      omega
    · exact .inl same

end

private theorem mem_lowerBound (mem : e ∈ l) (large : e.1.less key = false) :
    e ∈ l.dropWhile fun e => e.1.less key := by
  have split := takeWhile_append_dropWhile (p := fun e => e.1.less key) (l := l)
  rw [← split] at mem
  rcases mem_append.1 mem with below | behind
  · exact absurd (mem_takeWhile_imp below) (by simp [large])
  · exact behind

theorem mem_range (mem : (⟨now, n⟩, x) ∈ s.entries) : (⟨now, n⟩, x) ∈
      (s.entries.dropWhile fun e => e.1.less ⟨now, 0⟩).takeWhile fun e => e.1.hash = now := by
  refine mem_takeWhile_of_sorted ?_ ?_ (mem_lowerBound mem (COutPoint.not_less_first ⟨now, n⟩))
  · exact s.sorted.sublist (dropWhile_sublist _)
  · exact lowerBound_spec s.sorted

private theorem mem_scan_self : x ∈ s.scan now now ↔ s.Spends now x := by
  refine ⟨spends_of_mem_scan, fun ⟨n, mem⟩ => ?_⟩
  exact List.mem_map_of_mem (mem_range mem)

private theorem scan_other (spent : s.Spends start x) (other : start ≠ now) : s.scan start now = [] := by
  obtain ⟨_, mem⟩ := spent
  have inside := mem_range mem
  rw [scan, map_eq_nil_iff]
  -- The first entry of the range belongs to `start`.
  cases range : s.entries.dropWhile fun e => e.1.less ⟨start, 0⟩ with
  | nil => rfl
  | cons a _ =>
    rw [range] at inside
    have first : a.1.hash = start := by
      by_contra ne
      rw [takeWhile_cons_of_neg (by simpa using ne)] at inside
      cases inside
    rw [takeWhile_cons_of_neg (by simpa [first] using other)]

end TxSpends

/-- The part of `CWalletTx` the walks read and write. -/
structure CWalletTx where
  tx : CTransaction
  hashBlock : UInt256
  nIndex : ℤ
  deriving DecidableEq, Repr

def ABANDON_HASH : UInt256 := 1

/-- `chainActive` and `mapBlockIndex`: the height of the tip and of every block of the chain. -/
structure ActiveChain where
  height : ℤ
  heightOf : UInt256 → Option ℤ

namespace CWalletTx
def hashUnset (wtx : CWalletTx) : Bool := wtx.hashBlock = 0 || wtx.hashBlock = ABANDON_HASH

def isAbandoned (wtx : CWalletTx) : Bool := wtx.hashBlock = ABANDON_HASH

def setAbandoned (wtx : CWalletTx) : CWalletTx := { wtx with hashBlock := ABANDON_HASH }

@[simp] theorem isAbandoned_setAbandoned (wtx : CWalletTx) :
    wtx.setAbandoned.isAbandoned := by
  simp [isAbandoned, setAbandoned]

def getDepthInMainChain (chain : ActiveChain) (wtx : CWalletTx) : ℤ :=
  if wtx.hashUnset then 0
  else
    match chain.heightOf wtx.hashBlock with
    | none => 0
    | some nHeight => (if wtx.nIndex = -1 then -1 else 1) * (chain.height - nHeight + 1)

end CWalletTx
end Wallet

open Wallet

structure CWallet where
  mapWallet : AList fun _ : UInt256 => CWalletTx
  mapTxSpends : TxSpends

namespace Wallet
/-- `std::set<uint256>::insert`; the first element is the smallest. -/
def insertHash (x : UInt256) (hashes : List UInt256) : List UInt256 :=
  if x ∈ hashes then hashes
  else hashes.orderedInsert (fun a b => UInt256.data a ≤ UInt256.data b) x

theorem mem_insertHash : y ∈ insertHash x hashes ↔ y = x ∨ y ∈ hashes := by
  unfold insertHash
  split
  · next mem => exact ⟨.inr, fun inside => inside.elim (fun same => same ▸ mem) id⟩
  · exact mem_orderedInsert _

theorem nodup_insertHash (nodup : hashes.Nodup) : (insertHash x hashes).Nodup := by
  unfold insertHash
  split
  · exact nodup
  · next fresh => exact (perm_orderedInsert _ x hashes).nodup_iff.2 (nodup_cons.2 ⟨fresh, nodup⟩)

/-- The sets `todo` and `done` of a walk and the wallet it works on. -/
structure Walk where
  todo : List UInt256
  done : List UInt256
  wallet : CWallet

/-- Where a walk looks for spenders and what it does to a transaction: `none` is a failed
assertion, `some none` leaves it alone with all that spends it. -/
structure WalkRule where
  start : UInt256 → UInt256
  visit : CWalletTx → Option (Option CWalletTx)

/-- One turn of `while (!todo.empty())`. -/
def Walk.turn (rule : WalkRule) (s : Walk) : Turn Walk (Outcome CWallet CWallet) :=
  match s.todo with
  | [] => .leave (.ok s.wallet)
  | now :: todo =>
    let done := s.done.insert now
    match s.wallet.mapWallet.lookup now with
    | none => .leave .abort
    | some wtx =>
      match rule.visit wtx with
      | none => .leave .abort
      | some none => .again { s with todo, done }
      | some (some wtx') =>
        let found := s.wallet.mapTxSpends.scan (rule.start now) now
        .again {
          todo := (found.filter fun x => x ∉ done).foldl (fun todo x => insertHash x todo) todo
          done
          wallet := { s.wallet with mapWallet := s.wallet.mapWallet.insert now wtx' } }

def walkSpends (rule : WalkRule) (fuel : ℕ) (w : CWallet) (hashTx : UInt256) :
    Option (Outcome CWallet CWallet) :=
  iterate (Walk.turn rule) fuel ⟨[hashTx], [], w⟩

end Wallet

namespace CWallet
/-- What `AbandonTransaction` does to a transaction it comes to. -/
def abandonVisit (chain : ActiveChain) (inMempool : UInt256 → Bool) (wtx : CWalletTx) :
    Option (Option CWalletTx) :=
  let currentconfirm := wtx.getDepthInMainChain chain
  -- If the orig tx was not in block, none of its spends can be
  if 0 < currentconfirm then none
  else if currentconfirm = 0 ∧ wtx.isAbandoned = false then
    -- If the orig tx was not in block/mempool, none of its spends can be in mempool
    if inMempool wtx.tx.hash then none
    else some (some (CWalletTx.setAbandoned { wtx with nIndex := -1 }))
  else some none

/-- The range scan starts at the outputs of `hashTx` whatever
transaction the walk is at. -/
def abandonTransaction (chain : ActiveChain) (inMempool : UInt256 → Bool) (fuel : ℕ) (w : CWallet)
    (hashTx : UInt256) : Option (Outcome CWallet CWallet) :=
  match w.mapWallet.lookup hashTx with
  | none => some .abort
  | some origtx =>
    if 0 < origtx.getDepthInMainChain chain ∨ inMempool origtx.tx.hash then some (.fail w)
    else walkSpends ⟨fun _ => hashTx, abandonVisit chain inMempool⟩ fuel w hashTx

end CWallet

namespace Wallet
variable {w : CWallet} {hashTx : UInt256}

/-- What a walk that has come to `seen` left behind: each of those transactions was treated once,
by what the wallet said of it at the start, and nothing else changed. -/
structure Treated (rule : WalkRule) (w : CWallet) (seen : List UInt256) (w' : CWallet) : Prop where
  spends : w'.mapTxSpends = w.mapTxSpends
  known : ∀ x ∈ seen, ∃ wtx r, w.mapWallet.lookup x = some wtx ∧ rule.visit wtx = some r ∧
    w'.mapWallet.lookup x = some (r.getD wtx)
  others : ∀ x ∉ seen, w'.mapWallet.lookup x = w.mapWallet.lookup x

def Edge (rule : WalkRule) (w : CWallet) (x y : UInt256) : Prop :=
  y ∈ w.mapTxSpends.scan (rule.start x) x

/-- The state of a walk from `hashTx`. -/
structure Walking (rule : WalkRule) (w : CWallet) (hashTx : UInt256) (s : Walk) : Prop where
  treated : Treated rule w s.done s.wallet
  nodup : s.todo.Nodup
  apart : ∀ x ∈ s.todo, x ∉ s.done
  root : hashTx ∈ s.todo ∨ hashTx ∈ s.done
  closed : ∀ x ∈ s.done, ∀ wtx wtx', w.mapWallet.lookup x = some wtx →
    rule.visit wtx = some (some wtx') → ∀ y, Edge rule w x y → y ∈ s.todo ∨ y ∈ s.done
  reached : ∀ x, x ∈ s.todo ∨ x ∈ s.done → Relation.ReflTransGen (Edge rule w) hashTx x

variable {found todo : List UInt256} {s s' : Walk} {now : UInt256} {wtx : CWalletTx}
  {r : Option CWalletTx}

theorem mem_pushed :
    y ∈ found.foldl (fun todo x => insertHash x todo) todo ↔ y ∈ found ∨ y ∈ todo := by
  induction found generalizing todo with
  | nil => simp
  | cons x found ih =>
    rw [foldl_cons, ih, mem_insertHash, mem_cons]
    tauto

theorem nodup_pushed (nodup : todo.Nodup) :
    (found.foldl (fun todo x => insertHash x todo) todo).Nodup := by
  induction found generalizing todo with
  | nil => exact nodup
  | cons x found ih => exact ih (nodup_insertHash nodup)

/-- A turn that goes on: the transaction has been treated by the rule, and when the rule changed
it its spenders are on the list. -/
structure Turned (rule : WalkRule) (s : Walk) (now : UInt256) (todo : List UInt256)
    (wtx : CWalletTx) (r : Option CWalletTx) (s' : Walk) : Prop where
  found : s.wallet.mapWallet.lookup now = some wtx
  visited : rule.visit wtx = some r
  spends : s'.wallet.mapTxSpends = s.wallet.mapTxSpends
  here : s'.wallet.mapWallet.lookup now = some (r.getD wtx)
  others : ∀ x ≠ now, s'.wallet.mapWallet.lookup x = s.wallet.mapWallet.lookup x
  done : s'.done = s.done.insert now
  pushed : ∀ y, y ∈ s'.todo ↔ (r.isSome ∧ y ∈ s.wallet.mapTxSpends.scan (rule.start now) now ∧
    y ∉ s'.done) ∨ y ∈ todo
  nodup : todo.Nodup → s'.todo.Nodup

theorem Walk.turn_cases (first : s.todo = now :: todo) : s.turn rule = .leave .abort ∨
      ∃ wtx r s', Turned rule s now todo wtx r s' ∧ s.turn rule = .again s' := by
  simp only [Walk.turn, first]
  cases found : s.wallet.mapWallet.lookup now with
  | none => exact .inl rfl
  | some wtx =>
    cases visited : rule.visit wtx with
    | none => exact .inl (by simp [visited])
    | some r =>
      cases r with
      | none =>
        refine .inr ⟨wtx, none, _, ?_, by simp only [visited]; rfl⟩
        exact ⟨found, visited, rfl, found, fun _ _ => rfl, rfl, by simp, id⟩
      | some wtx' =>
        refine .inr ⟨wtx, some wtx', _, ?_, by simp only [visited]; rfl⟩
        refine ⟨found, visited, rfl, lookup_insert _, fun _ ne => lookup_insert_ne ne,
          rfl, fun _ => ?_, nodup_pushed⟩
        simp [mem_pushed]

theorem Treated.step (treated : Treated rule w s.done s.wallet) (fresh : now ∉ s.done)
    (turned : Turned rule s now todo wtx r s') : Treated rule w s'.done s'.wallet where
  spends := turned.spends.trans treated.spends
  known := by
    intro x mem
    rcases mem_insert_iff.1 (turned.done ▸ mem) with rfl | old
    · exact ⟨wtx, r, (treated.others x fresh) ▸ turned.found, turned.visited, turned.here⟩
    obtain ⟨wtx₀, r₀, was, visited, now₀⟩ := treated.known x old
    have ne : x ≠ now := fun same => fresh (same ▸ old)
    exact ⟨wtx₀, r₀, was, visited, (turned.others x ne).trans now₀⟩
  others := by
    intro x missing
    rw [turned.done, mem_insert_iff, not_or] at missing
    rw [turned.others x missing.1]
    exact treated.others x missing.2

theorem Walking.start (rule : WalkRule) (w : CWallet) (hashTx : UInt256) :
    Walking rule w hashTx ⟨[hashTx], [], w⟩ where
  treated := ⟨rfl, by simp, fun _ _ => rfl⟩
  nodup := nodup_singleton hashTx
  apart := by simp
  root := .inl mem_cons_self
  closed := by simp
  reached := by
    rintro _ (mem | mem)
    · rw [mem_singleton] at mem
      exact mem ▸ .refl
    · cases mem

theorem Walking.turned (walking : Walking rule w hashTx s) (first : s.todo = now :: todo)
    (turned : Turned rule s now todo wtx r s') : Walking rule w hashTx s' := by
  have fresh := walking.apart now (by simp [first])
  have nodup := nodup_cons.1 (first ▸ walking.nodup)
  have same := (walking.treated.others now fresh) ▸ turned.found
  have staged : ∀ y, y ∈ s.todo ∨ y ∈ s.done → y ∈ s'.todo ∨ y ∈ s'.done := by
    rw [turned.done]
    rintro y (mem | mem)
    · rcases mem_cons.1 (first ▸ mem) with rfl | rest
      · exact .inr mem_insert_self
      · exact .inl ((turned.pushed y).2 (.inr rest))
    · exact .inr (mem_insert_of_mem mem)
  refine ⟨walking.treated.step fresh turned, turned.nodup nodup.2, ?_, staged _ walking.root,
    ?_, ?_⟩
  · intro y mem
    rcases (turned.pushed y).1 mem with ⟨-, -, new⟩ | rest
    · exact new
    rw [turned.done, mem_insert_iff]
    rintro (rfl | old)
    · exact nodup.1 rest
    · exact walking.apart y (by simp [first, rest]) old
  · intro x mem wtx₀ wtx' was changed y edge
    rcases mem_insert_iff.1 (turned.done ▸ mem) with rfl | old
    · -- The spenders of the transaction just changed were put on the list unless done.
      obtain rfl := mem_unique same was
      obtain rfl := mem_unique turned.visited changed
      by_cases done : y ∈ s'.done
      · exact .inr done
      · exact .inl ((turned.pushed y).2 (.inl ⟨rfl, walking.treated.spends ▸ edge, done⟩))
    · exact staged y (walking.closed x old wtx₀ wtx' was changed y edge)
  have here := walking.reached now (.inl (by simp [first]))
  rintro y (mem | mem)
  · rcases (turned.pushed y).1 mem with ⟨-, edge, -⟩ | rest
    · exact here.tail (by rw [Edge, ← walking.treated.spends]; exact edge)
    · exact walking.reached y (.inl (by simp [first, rest]))
  rcases mem_insert_iff.1 (turned.done ▸ mem) with rfl | old
  · exact here
  · exact walking.reached y (.inr old)

/-- What a completed walk from `hashTx` has done. -/
structure Walked (rule : WalkRule) (w : CWallet) (hashTx : UInt256) (seen : List UInt256)
    (w' : CWallet) : Prop where
  treated : Treated rule w seen w'
  root : hashTx ∈ seen
  closed : ∀ x ∈ seen, ∀ wtx wtx', w.mapWallet.lookup x = some wtx →
    rule.visit wtx = some (some wtx') → ∀ y, Edge rule w x y → y ∈ seen
  reached : ∀ x ∈ seen, Relation.ReflTransGen (Edge rule w) hashTx x

theorem walkSpends_walked
    (ran : walkSpends rule fuel w hashTx = some (.ok w')) : ∃ seen, Walked rule w hashTx seen w' := by
  refine iterate.invariant
    (Q := fun result => ∀ w', result = .ok w' → ∃ seen, Walked rule w hashTx seen w') ?_ ?_
    (Walking.start rule w hashTx) ran w' rfl
  · intro s _ walking again
    cases first : s.todo with
    | nil => simp [Walk.turn, first] at again
    | cons now todo =>
      rcases Walk.turn_cases first with stop | ⟨wtx, r, s'', turned, goes⟩
      · rw [stop] at again
        cases again
      rw [goes] at again
      cases again
      exact walking.turned first turned
  rintro s result walking stop w' rfl
  cases first : s.todo with
  | nil =>
    obtain rfl : s.wallet = w' := by simpa [Walk.turn, first] using stop
    refine ⟨s.done, walking.treated, ?_, ?_, fun x mem => walking.reached x (.inr mem)⟩
    · exact walking.root.resolve_left (by simp [first])
    · intro x mem wtx wtx' was changed y edge
      exact (walking.closed x mem wtx wtx' was changed y edge).resolve_left (by simp [first])
  | cons now todo =>
    rcases Walk.turn_cases first with stop' | ⟨wtx, r, s'', turned, goes⟩
    · rw [stop'] at stop
      cases stop
    · rw [goes] at stop
      cases stop

theorem Walking.again (walking : Walking rule w hashTx s) (nodup : s.done.Nodup)
    (again : s.turn rule = .again s') : (Walking rule w hashTx s' ∧ s'.done.Nodup) ∧
      w.mapWallet.keys.length - s'.done.length < w.mapWallet.keys.length - s.done.length := by
  cases first : s.todo with
  | nil => simp [Walk.turn, first] at again
  | cons now todo =>
    rcases Walk.turn_cases first with stop | ⟨wtx, _, _, turned, goes⟩
    · rw [stop] at again
      cases again
    rw [goes] at again
    cases again
    have next := walking.turned first turned
    have fresh := walking.apart now (by simp [first])
    have longer : s'.done.length = s.done.length + 1 := by
      rw [turned.done, insert_of_not_mem fresh, length_cons]
    have next_nodup := turned.done ▸ nodup.insert
    have inside : s'.done ⊆ w.mapWallet.keys := by
      intro x mem
      obtain ⟨wtx, -, known, -⟩ := next.treated.known x mem
      exact mem_keys.1 (lookup_isSome.1 (by simp [known]))
    have bound := (next_nodup.subperm inside).length_le
    exact ⟨⟨next, next_nodup⟩, by omega⟩

/-- The states that a walk from `hashTx` comes through. -/
def Walk.Reaches (rule : WalkRule) (w : CWallet) (hashTx : UInt256) : Walk → Prop :=
  Relation.ReflTransGen (fun s s' => s.turn rule = .again s') ⟨[hashTx], [], w⟩

theorem Walk.Reaches.walking (reaches : Walk.Reaches rule w hashTx s) :
    Walking rule w hashTx s ∧ s.done.Nodup := by
  induction reaches with
  | refl => exact ⟨.start rule w hashTx, nodup_nil⟩
  | tail _ again ih => exact (ih.1.again ih.2 again).1

theorem walkSpends_ends (rule : WalkRule) (w : CWallet) (hashTx : UInt256) :
    ∃ result, walkSpends rule (w.mapWallet.keys.length + 1) w hashTx = some result :=
  iterate.within (I := fun s => Walking rule w hashTx s ∧ s.done.Nodup)
    (m := fun s => w.mapWallet.keys.length - s.done.length)
    (fun _ _ walking again => walking.1.again walking.2 again)
    ⟨.start rule w hashTx, nodup_nil⟩ (Nat.lt_succ_self _)

end Wallet

namespace CWallet
variable {chain : ActiveChain} {inMempool : UInt256 → Bool} {fuel : ℕ} {w w' : CWallet}
  {hashTx x : UInt256}

/-- The wallet transaction `x` can be abandoned: it has depth 0 and is not abandoned yet. -/
def Pending (chain : ActiveChain) (w : CWallet) (x : UInt256) : Prop :=
  ∃ wtx, w.mapWallet.lookup x = some wtx ∧ wtx.getDepthInMainChain chain = 0 ∧
    wtx.isAbandoned = false

/-- The wallet transaction `x` is abandoned. -/
def Abandoned (w : CWallet) (x : UInt256) : Prop :=
  ∃ wtx, w.mapWallet.lookup x = some wtx ∧ wtx.isAbandoned = true

/-- The unconfirmed tree of a transaction: what spends it along transactions that can be
abandoned. -/
inductive Descends (chain : ActiveChain) (w : CWallet) (hashTx : UInt256) : UInt256 → Prop where
  | root : Pending chain w hashTx → Descends chain w hashTx hashTx
  | spent {x y : UInt256} : Descends chain w hashTx x → w.mapTxSpends.Spends x y →
      Pending chain w y → Descends chain w hashTx y

theorem Descends.pending (down : Descends chain w hashTx x) : Pending chain w x := by
  cases down with
  | root pending | spent _ _ pending => exact pending

theorem Descends.pending_root (down : Descends chain w hashTx x) : Pending chain w hashTx := by
  induction down with
  | root pending => exact pending
  | spent _ _ _ ih => exact ih

/-- `AbandonTransaction` ends after a turn for each wallet transaction and the last test: what is on
its list is there once and was not treated before. -/
theorem abandonTransaction_ends :
    (∃ result, abandonTransaction chain inMempool (w.mapWallet.keys.length + 1) w hashTx =
      some result) ∧
    ∀ s, Walk.Reaches ⟨fun _ => hashTx, abandonVisit chain inMempool⟩ w hashTx s →
      s.todo.Nodup ∧ s.done.Nodup ∧ s.todo.Disjoint s.done := by
  constructor
  · unfold abandonTransaction
    split
    · exact ⟨_, rfl⟩
    split
    · exact ⟨_, rfl⟩
    · exact walkSpends_ends _ w hashTx
  · intro s reaches
    obtain ⟨walking, nodup⟩ := reaches.walking
    exact ⟨walking.nodup, nodup, fun _ listed done => walking.apart _ listed done⟩

theorem abandonTransaction_walked (returned : abandonTransaction chain inMempool fuel w hashTx =
    some (.ok w')) : ∃ seen,
      Walked ⟨fun _ => hashTx, abandonVisit chain inMempool⟩ w hashTx seen w' := by
  unfold abandonTransaction at returned
  split at returned
  · cases returned
  split at returned
  · cases returned
  · exact walkSpends_walked returned

private theorem abandonVisit_pending
    (depth : wtx.getDepthInMainChain chain = 0) (live : wtx.isAbandoned = false)
    (visited : abandonVisit chain inMempool wtx = some r) :
    ∃ wtx', r = some wtx' ∧ wtx'.isAbandoned := by
  simp only [abandonVisit, depth, live, lt_irrefl, if_false, and_self, if_true] at visited
  split at visited
  · cases visited
  · exact ⟨_, (some.inj visited).symm, CWalletTx.isAbandoned_setAbandoned _⟩

private theorem seen_of_abandoned
    (walked : Walked ⟨fun _ => hashTx, abandonVisit chain inMempool⟩ w hashTx seen w')
    (mem : x ∈ seen) : x = hashTx ∨ w.mapTxSpends.Spends hashTx x := by
  -- The last step of the walk to `x` was a scan; the first step shows that `hashTx` is spent.
  rcases Relation.ReflTransGen.cases_tail (walked.reached x mem) with same | ⟨y, before, last⟩
  · exact .inl same
  rcases Relation.ReflTransGen.cases_head before with rfl | ⟨_, first, -⟩
  · exact .inr (TxSpends.spends_of_mem_scan last)
  have spent := TxSpends.spends_of_mem_scan first
  by_cases same : hashTx = y
  · subst same
    exact .inr (TxSpends.spends_of_mem_scan last)
  · rw [Edge, TxSpends.scan_other spent same] at last
    cases last

/-- `AbandonTransaction` abandons the whole unconfirmed tree exactly when the tree goes no further
than the transactions that spend `hashTx` itself. -/
theorem abandons_descendants_iff
    (returned : abandonTransaction chain inMempool fuel w hashTx = some (.ok w')) :
    (∀ x, Descends chain w hashTx x → Abandoned w' x) ↔
      ∀ x, Descends chain w hashTx x → x = hashTx ∨ w.mapTxSpends.Spends hashTx x := by
  obtain ⟨seen, walked⟩ := abandonTransaction_walked returned
  constructor
  · intro abandoned x down
    by_contra far
    have unseen : x ∉ seen := fun member => far (seen_of_abandoned walked member)
    obtain ⟨wtx, found, gone⟩ := abandoned x down
    obtain ⟨wtx', found', -, live⟩ := down.pending
    rw [walked.treated.others x unseen, found'] at found
    obtain rfl := some.inj found
    rw [gone] at live
    cases live
  intro near x down
  have member : x ∈ seen := by
    rcases near x down with rfl | spends
    · exact walked.root
    obtain ⟨wtx, found, depth, live⟩ := down.pending_root
    obtain ⟨wtx', r, found', visited, -⟩ := walked.treated.known hashTx walked.root
    obtain rfl := mem_unique found found'
    obtain ⟨wtx', rfl, -⟩ := abandonVisit_pending depth live visited
    exact walked.closed hashTx walked.root _ _ found visited x (TxSpends.mem_scan_self.2 spends)
  obtain ⟨wtx, found, depth, live⟩ := down.pending
  obtain ⟨wtx', r, found', visited, left⟩ := walked.treated.known x member
  obtain rfl := mem_unique found found'
  obtain ⟨wtx', rfl, gone⟩ := abandonVisit_pending depth live visited
  exact ⟨wtx', left, gone⟩

/-- A chain with one block, which holds none of the transactions below. -/
def quietChain : ActiveChain where
  height := 0
  heightOf := fun _ => none

/-- An unconfirmed transaction that spends the first output of `parent`. -/
def unconfirmed (parent hash : UInt256) : CWalletTx := ⟨.simple ⟨parent, 0⟩ hash, 0, -1⟩

def pairWallet : CWallet where
  mapWallet := (singleton 10 (unconfirmed 5 10)).insert 20 (unconfirmed 10 20)
  mapTxSpends := ⟨[(⟨5, 0⟩, 10), (⟨10, 0⟩, 20)], by decide⟩

/-- As `pairWallet`, with a third transaction 30 that spends 20. -/
def lineWallet : CWallet where
  mapWallet := pairWallet.mapWallet.insert 30 (unconfirmed 20 30)
  mapTxSpends := ⟨[(⟨5, 0⟩, 10), (⟨10, 0⟩, 20), (⟨20, 0⟩, 30)], by decide⟩

def withoutPair (w : CWallet) : CWallet :=
  let changed := w.mapWallet.insert 10 (unconfirmed 5 10).setAbandoned
  { w with mapWallet := changed.insert 20 (unconfirmed 10 20).setAbandoned }

theorem pending_unconfirmed (parent hash : UInt256)
    (found : w.mapWallet.lookup hash = some (unconfirmed parent hash)) :
    Pending quietChain w hash :=
  ⟨_, found, by simp [CWalletTx.getDepthInMainChain, CWalletTx.hashUnset, unconfirmed],
    by simp [CWalletTx.isAbandoned, unconfirmed, ABANDON_HASH]⟩

theorem descends_pairWallet : Descends quietChain pairWallet 10 20 :=
  .spent (.root (pending_unconfirmed 5 10 rfl)) ⟨0, by decide⟩ (pending_unconfirmed 10 20 rfl)

/-- The tree of 10 in `pairWallet` is abandoned: nothing spends 20. -/
theorem abandons_pairWallet : abandonTransaction quietChain (fun _ => false) 3 pairWallet 10 =
        some (.ok (withoutPair pairWallet)) ∧
      Descends quietChain pairWallet 10 20 ∧ Abandoned (withoutPair pairWallet) 20 := by
  have returned : abandonTransaction quietChain (fun _ => false) 3 pairWallet 10 =
      some (.ok (withoutPair pairWallet)) := rfl
  refine ⟨returned, descends_pairWallet, ?_⟩
  refine (abandons_descendants_iff returned).2 (fun _ down => ?_) 20 descends_pairWallet
  cases down with
  | root _ => exact .inl rfl
  | spent _ spends _ =>
    obtain ⟨_, member⟩ := spends
    rcases mem_cons.1 member with first | second
    · exact .inl (Prod.mk.inj first).2
    · obtain rfl := (Prod.mk.inj (mem_singleton.1 second)).2
      exact .inr ⟨0, by decide⟩

/-- In `lineWallet` the transaction 30 is left behind, although 10 and 20 are both abandoned. -/
theorem lineWallet_not_abandoned : abandonTransaction quietChain (fun _ => false) 4 lineWallet 10 =
        some (.ok (withoutPair lineWallet)) ∧
      Descends quietChain lineWallet 10 30 ∧ ¬ Abandoned (withoutPair lineWallet) 30 := by
  have middle : Descends quietChain lineWallet 10 20 :=
    .spent (.root (pending_unconfirmed 5 10 rfl)) ⟨0, by decide⟩ (pending_unconfirmed 10 20 rfl)
  refine ⟨rfl, .spent middle ⟨0, by decide⟩ (pending_unconfirmed 20 30 rfl), ?_⟩
  rintro ⟨_, found, gone⟩
  obtain rfl := some.inj found
  exact absurd gone (by decide)

end CWallet
end DogecoinCore
