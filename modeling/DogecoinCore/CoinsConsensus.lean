import DogecoinCore.BlockUndo
import DogecoinCore.ChainState

/-! Coins with the undo data of the blocks connected to them are coins in the sense of `Consensus`:
`connectBlock` adds a record, and `disconnectBlock` takes the last one back. -/
namespace DogecoinCore.Coins

/-- A block connected to the coins of the view below it. -/
structure BlockRecord where
  hash : UInt256
  below : CCoinsViewCache
  undo : CBlockUndo

section
variable (context : UInt256 → ConnectContext) (body : UInt256 → CBlock)

/-- The view is what `ConnectBlock` made, block by block, of the view below the first record. -/
def Recorded (view : CCoinsViewCache) : List BlockRecord → Prop
  | [] => True
  | r :: records => connectBlock (context r.hash) (body r.hash) r.below = .ok (view, r.undo) ∧
      Recorded r.below records

structure UndoableCoins where
  view : CCoinsViewCache
  records : List BlockRecord
  recorded : Recorded context body view records

end

namespace UndoableCoins
variable {context : UInt256 → ConnectContext} {body : UInt256 → CBlock}

def connect (coins : UndoableCoins context body) (b : UInt256) :
    Option (UndoableCoins context body) :=
  match connected : connectBlock (context b) (body b) coins.view with
  | .ok (view, undo) =>
    some ⟨view, ⟨b, coins.view, undo⟩ :: coins.records, connected, coins.recorded⟩
  | _ => none

/-- A rejected block leaves a view that no undo data leads to. -/
def leftover (coins : UndoableCoins context body) (b : UInt256) : UndoableCoins context body :=
  match connectBlock (context b) (body b) coins.view with
  | .fail rejected => ⟨rejected.view, [], trivial⟩
  | _ => coins

def disconnect : UndoableCoins context body → UInt256 → Option (UndoableCoins context body)
  | ⟨_, [], _⟩, _ => none
  | ⟨_, r :: records, recorded⟩, b =>
    if r.hash = b then some ⟨r.below, records, recorded.2⟩ else none

theorem disconnect_eq_some {before after : UndoableCoins context body} :
    after.disconnect b = some before ↔
      ∃ undo, after.records = ⟨b, before.view, undo⟩ :: before.records := by
  obtain ⟨view, records, recorded⟩ := after
  obtain ⟨below, rest, stacked⟩ := before
  cases records with
  | nil => simp [disconnect]
  | cons r records =>
    obtain ⟨hash, under, undo⟩ := r
    simp only [disconnect, Option.ite_none_right_eq_some, Option.some.injEq, mk.injEq,
      List.cons.injEq, BlockRecord.mk.injEq]
    constructor
    · rintro ⟨rfl, rfl, rfl⟩
      exact ⟨undo, ⟨rfl, rfl, rfl⟩, rfl⟩
    · rintro ⟨_, ⟨rfl, rfl, -⟩, rfl⟩
      exact ⟨rfl, rfl, rfl⟩

theorem connect_eq_some {before after : UndoableCoins context body} :
    before.connect b = some after ↔
      ∃ undo, after.records = ⟨b, before.view, undo⟩ :: before.records := by
  constructor
  · intro connects
    unfold connect at connects
    split at connects
    · cases connects
      exact ⟨_, rfl⟩
    · cases connects
  · rintro ⟨undo, same⟩
    obtain ⟨view, records, recorded⟩ := after
    subst same
    unfold connect
    split
    · next connected =>
      cases connected.symm.trans recorded.1
      rfl
    · next other => exact absurd recorded.1 (other _ _)

/-- The consensus rules over coins that can be undone. -/
def consensus (context : UInt256 → ConnectContext) (body : UInt256 → CBlock)
    (hashGenesisBlock : UInt256) : Consensus (UndoableCoins context body) where
  hashGenesisBlock := hashGenesisBlock
  connect := connect
  leftover := leftover
  disconnect := disconnect
  disconnect_iff := disconnect_eq_some.trans connect_eq_some.symm

/-- `Consensus.disconnect` returns to the coins below the last record, and `DisconnectBlock`, with the
undo data of this record read back from the disk, to a view that shows them. -/
theorem disconnectBlock_refines (keys : PubKeys) (hasher : List UInt8 → UInt256)
    {before after : UndoableCoins context body} {m : CoinsMap} (hashGenesisBlock : UInt256)
    (last : after.records = ⟨b, before.view, undo⟩ :: before.records) (view : before.view.Shows m)
    (restorable : m.Restorable) (positive : 0 < (context b).nHeight)
    (later : (body b).hash ≠ (context b).hashGenesisBlock)
    (new : m.NoOverwrite (context b).nHeight (body b).vtx) (kept : (context b).fJustCheck = false)
    (named : (body b).hash ≠ 0) :
    (consensus context body hashGenesisBlock).disconnect after b = some before ∧
      ∃ (back : CCoinsViewCache) (m' : CoinsMap), disconnectBlock keys hasher (context b) (body b)
          (undoWriteToDisk keys hasher (context b).hashPrevBlock undo) after.view =
            .ok (true, back.setBestBlock (context b).hashPrevBlock) ∧
        back.Shows m' ∧ ∀ txid, Option.Rel CCoins.Same (m' txid) (m txid) := by
  refine ⟨disconnect_eq_some.2 ⟨undo, last⟩, ?_⟩
  obtain ⟨connected, -⟩ := last ▸ after.recorded
  obtain ⟨_, back, m', -, -, -, shows, coins, whole⟩ :=
    connectBlock_undone keys hasher [] view restorable positive later new connected
  rw [List.append_nil] at whole
  exact ⟨back, m', whole kept named, shows, coins⟩

example : let coins : UndoableCoins (fun _ => plainContext 9 2) (fun _ => plainBlock) :=
      ⟨plainView, [], trivial⟩
    ((coins.connect 20).bind (·.disconnect 20)).map (·.records.length) = some 0 := rfl

end UndoableCoins
end DogecoinCore.Coins
