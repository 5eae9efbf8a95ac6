import Truthcoin.CoinEdits
import Truthcoin.SampleLibrary
import Truthcoin.TagConnect

/-!
# The stages of a block

A block creates outputs in stages: the coinbase, its transactions one by one, the consolidation
of each traded market, the change of the sells, and the settlement of each resolved market. An
outpoint names the stage that it comes from, so a block that repeats nothing of its chain
creates new outputs only.
-/

namespace Truthcoin.CoinStages

open Truthcoin.Types Truthcoin.Table Truthcoin.Fallible Truthcoin.Markets Truthcoin.Blocks
open Truthcoin.Commitments

variable {F : Type} {L : Library F}

/-- A stage of a block. -/
inductive Stage where
  | coinbase
  | transaction (txid : Txid)
  | consolidation (marketId : MarketId)
  | sellChange
  | settlement (marketId : MarketId)

/-- The payouts of a stage. -/
def Pays (L : Library F) (block : Block F) (height : Nat) : Stage → PayoutSource → Prop
  | .consolidation marketId, .sellPayout marketId' _ txid
  | .consolidation marketId, .buyChange marketId' _ txid =>
      marketId = marketId' ∧ ∃ tx ∈ block.body.transactions, txid = L.txid tx
  | .sellChange, .sellInputChange _ txid =>
      ∃ tx ∈ block.body.transactions, txid = L.txid tx
  | .settlement marketId, .sharePayout marketId' _ height' _ =>
      marketId = marketId' ∧ height = height'
  | _, _ => False

/-- The outpoints that a stage of a block at some height can create. -/
inductive Makes (L : Library F) (block : Block F) (height : Nat) : Stage → OutPoint → Prop where
  | coinbase (vout : Nat) :
      Makes L block height .coinbase (.coinbase (L.coinbaseTxid block.header) vout)
  | transaction {tx : Transaction F} (htx : tx ∈ block.body.transactions) (vout : Nat) :
      Makes L block height (.transaction (L.txid tx)) (.regular (L.txid tx) vout)
  | funds (marketId : MarketId) (isFee : Bool) :
      Makes L block height (.consolidation marketId) (.marketFunds marketId height isFee)
  | payout {stage : Stage} {source : PayoutSource} (hpays : Pays L block height stage source)
      (vout : Nat) : Makes L block height stage (.payout (payoutHash L source) vout)

section

variable {block : Block F} {height : Nat} {owner : Address} {txid : Txid}

theorem Makes.sellPayout {marketId : MarketId}
    (htxid : ∃ tx ∈ block.body.transactions, txid = L.txid tx) :
    Makes L block height (.consolidation marketId) (sellPayoutOutpoint L marketId owner txid) := by
  have hpays : Pays L block height (.consolidation marketId) (.sellPayout marketId owner txid) :=
    ⟨rfl, htxid⟩
  exact .payout hpays 0

theorem Makes.buyChange {marketId : MarketId}
    (htxid : ∃ tx ∈ block.body.transactions, txid = L.txid tx) :
    Makes L block height (.consolidation marketId) (buyChangeOutpoint L marketId owner txid) := by
  have hpays : Pays L block height (.consolidation marketId) (.buyChange marketId owner txid) :=
    ⟨rfl, htxid⟩
  exact .payout hpays 0

theorem Makes.sellInputChange (htxid : ∃ tx ∈ block.body.transactions, txid = L.txid tx) :
    Makes L block height .sellChange (sellInputChangeOutpoint L owner txid) := by
  have hpays : Pays L block height .sellChange (.sellInputChange owner txid) := htxid
  exact .payout hpays 0

theorem Makes.sharePayout (marketId : MarketId) (sequence : Nat) :
    Makes L block height (.settlement marketId)
      (sharePayoutOutpoint L marketId owner height sequence) := by
  have hpays : Pays L block height (.settlement marketId)
      (.sharePayout marketId owner height sequence) := ⟨rfl, rfl⟩
  exact .payout hpays sequence

end

/-- Blocks that make the same outpoint make it in the same stage, and they share their header,
the id of a transaction or their height. -/
theorem Makes.share (hL : CollisionFree L) {block block' : Block F} {height height' : Nat}
    {stage stage' : Stage} {o : OutPoint} (h : Makes L block height stage o)
    (h' : Makes L block' height' stage' o) :
    stage = stage' ∧ (block.header = block'.header ∨ height = height' ∨
      ∃ tx ∈ block.body.transactions, ∃ tx' ∈ block'.body.transactions,
        L.txid tx = L.txid tx') := by
  cases h with
  | coinbase vout =>
      generalize ho : OutPoint.coinbase (L.coinbaseTxid block.header) vout = o at h'
      cases h' with
      | coinbase vout' => exact ⟨rfl, .inl (hL.coinbaseTxid (OutPoint.coinbase.inj ho).1)⟩
      | transaction | funds | payout => cases ho
  | @transaction tx htx vout =>
      generalize ho : OutPoint.regular (L.txid tx) vout = o at h'
      cases h' with
      | transaction htx' vout' =>
          have htxid := (OutPoint.regular.inj ho).1
          exact ⟨congrArg _ htxid, .inr (.inr ⟨tx, htx, _, htx', htxid⟩)⟩
      | coinbase | funds | payout => cases ho
  | funds marketId isFee =>
      generalize ho : OutPoint.marketFunds marketId height isFee = o at h'
      cases h' with
      | funds marketId' isFee' =>
          obtain ⟨rfl, rfl, -⟩ := OutPoint.marketFunds.inj ho
          exact ⟨rfl, .inr (.inl rfl)⟩
      | coinbase | transaction | payout => cases ho
  | @payout _ source hpays vout =>
      generalize ho : OutPoint.payout (payoutHash L source) vout = o at h'
      cases h' with
      | @payout _ source' hpays' vout' =>
          obtain rfl := hL.payoutHash (OutPoint.payout.inj ho).1
          cases source with
          | sellPayout marketId owner txid | buyChange marketId owner txid =>
              cases stage with
              | consolidation =>
                  cases stage' with
                  | consolidation =>
                      obtain ⟨rfl, tx, htx, rfl⟩ := hpays
                      obtain ⟨rfl, tx', htx', htxid⟩ := hpays'
                      exact ⟨rfl, .inr (.inr ⟨tx, htx, tx', htx', htxid⟩)⟩
                  | coinbase | transaction | sellChange | settlement => cases hpays'
              | coinbase | transaction | sellChange | settlement => cases hpays
          | sellInputChange owner txid =>
              cases stage with
              | sellChange =>
                  cases stage' with
                  | sellChange =>
                      obtain ⟨tx, htx, rfl⟩ := hpays
                      obtain ⟨tx', htx', htxid⟩ := hpays'
                      exact ⟨rfl, .inr (.inr ⟨tx, htx, tx', htx', htxid⟩)⟩
                  | coinbase | transaction | consolidation | settlement => cases hpays'
              | coinbase | transaction | consolidation | settlement => cases hpays
          | sharePayout marketId owner paidAt sequence =>
              cases stage with
              | settlement =>
                  cases stage' with
                  | settlement =>
                      obtain ⟨rfl, rfl⟩ := hpays
                      obtain ⟨rfl, rfl⟩ := hpays'
                      exact ⟨rfl, .inr (.inl rfl)⟩
                  | coinbase | transaction | consolidation | sellChange => cases hpays'
              | coinbase | transaction | consolidation | sellChange => cases hpays
      | coinbase | transaction | funds => cases ho

/-- An outpoint that comes from a deposit or from a stage of a block of the chain, which has
its newest block first. -/
inductive Placed (L : Library F) : List (Block F) → OutPoint → Prop where
  | deposit {chain : List (Block F)} (txid vout : Nat) : Placed L chain (.deposit txid vout)
  | made {chain : List (Block F)} {block : Block F} {stage : Stage} {o : OutPoint}
      (hmakes : Makes L block chain.length stage o) : Placed L (block :: chain) o
  | older {chain : List (Block F)} {block : Block F} {o : OutPoint} (h : Placed L chain o) :
      Placed L (block :: chain) o

/-- The block is not in the chain, and repeats none of its transactions. -/
structure Unrepeated (L : Library F) (chain : List (Block F)) (block : Block F) : Prop where
  header : ∀ older ∈ chain, block.header ≠ older.header
  transactions : ∀ older ∈ chain, ∀ tx ∈ block.body.transactions,
    ∀ tx' ∈ older.body.transactions, L.txid tx ≠ L.txid tx'
  distinct : (block.body.transactions.map L.txid).Nodup

theorem Makes.not_placed (hL : CollisionFree L) {chain : List (Block F)} {block : Block F}
    {height : Nat} (hheight : chain.length ≤ height) {stage : Stage} {o : OutPoint}
    (hmakes : Makes L block height stage o)
    (hheader : ∀ older ∈ chain, block.header ≠ older.header)
    (htransactions : ∀ older ∈ chain, ∀ tx ∈ block.body.transactions,
      ∀ tx' ∈ older.body.transactions, L.txid tx ≠ L.txid tx') : ¬ Placed L chain o := by
  intro hplaced
  induction hplaced with
  | deposit txid vout => cases hmakes
  | @made chain older stage' o hmakes' =>
      rcases (hmakes.share hL hmakes').2 with hsame | hsame | ⟨tx, htx, tx', htx', htxid⟩
      · exact hheader older List.mem_cons_self hsame
      · rw [List.length_cons] at hheight
        omega
      · exact htransactions older List.mem_cons_self tx htx tx' htx' htxid
  | older h ih =>
      rw [List.length_cons] at hheight
      exact ih (by omega) hmakes (fun older holder => hheader older (by simp [holder]))
        fun older holder => htransactions older (by simp [holder])

/-- Nothing is or was where a stage of a block makes its outputs. -/
def Untouched (L : Library F) (block : Block F) (height : Nat) (stage : Stage) (c : Coins) :
    Prop :=
  ∀ o, Makes L block height stage o → c.Unused o

theorem Unrepeated.untouched (hL : CollisionFree L) {chain : List (Block F)} {block : Block F}
    (hblock : Unrepeated L chain block) {c : Coins} (hc : c.Within (Placed L chain))
    (stage : Stage) : Untouched L block chain.length stage c :=
  fun _ hmakes =>
    hc.absent (hmakes.not_placed hL le_rfl hblock.header hblock.transactions)

theorem Untouched.brings_others (hL : CollisionFree L) {block : Block F} {height : Nat}
    {other : Stage} {c c' : Coins} {P : OutPoint → Prop} (h : Untouched L block height other c)
    (hbrings : c.Brings P c')
    (hP : ∀ o, P o → ∃ stage, other ≠ stage ∧ Makes L block height stage o) :
    Untouched L block height other c' := by
  refine fun o hmakes => hbrings o (fun ho => ?_) (h o hmakes)
  obtain ⟨stage, hne, hmakes'⟩ := hP o ho
  exact hne (hmakes.share hL hmakes').1

theorem Untouched.brings (hL : CollisionFree L) {block : Block F} {height : Nat}
    {stage other : Stage} {c c' : Coins} (h : Untouched L block height other c)
    (hbrings : c.Brings (Makes L block height stage) c') (hne : other ≠ stage) :
    Untouched L block height other c' :=
  h.brings_others hL hbrings fun _ ho => ⟨stage, hne, ho⟩

end Truthcoin.CoinStages

namespace Truthcoin

open Truthcoin.Types Truthcoin.Table Truthcoin.TwoWayPeg

namespace TwoWayPeg

open Truthcoin.Fallible Truthcoin.PegSteps Truthcoin.WithdrawalBundle
open Truthcoin.PegUndo (infoRows)

variable {P Q : OutPoint → Prop} {s s' : PegState} {c c' : Coins} {rows : List CoinRow}
  {m : M6id}

/-- All outpoints of the coins and of the recorded bundles are in a set. -/
structure PegState.Within (P : OutPoint → Prop) (s : PegState) : Prop where
  coins : s.coins.Within P
  bundles : ∀ {m : M6id} {info : WithdrawalBundleInfo} {st : Status},
    s.dbs.withdrawalBundles[m]? = some (info, st) → ∀ row ∈ infoRows info, P row.1

theorem PegState.Within.putBundle (hs : s.Within P) {info : WithdrawalBundleInfo} {st : Status}
    (hinfo : ∀ row ∈ infoRows info, P row.1) : (s.putBundle m (info, st)).Within P where
  coins := hs.coins
  bundles {m' info' st'} h := by
    have hlookup : (s.putBundle m (info, st)).dbs.withdrawalBundles[m']? =
        if m' = m then some (info, st) else s.dbs.withdrawalBundles[m']? := lookup_insert
    rw [hlookup] at h
    split at h
    · obtain ⟨rfl, -⟩ := Prod.mk.inj (Option.some.inj h)
      exact hinfo
    · exact hs.bundles h

theorem PegState.Within.withCoins (hs : s.Within P) (hc : c.Within P) :
    ({ s with coins := c } : PegState).Within P :=
  ⟨hc, hs.bundles⟩

theorem PegState.Within.setPending (hs : s.Within P) (m : Option M6id) :
    (s.setPending m).Within P :=
  ⟨hs.coins, hs.bundles⟩

theorem spendBundleUtxos_within {missing : OutPoint → Error} (hc : c.Within P)
    (hrows : ∀ row ∈ rows, P row.1) (h : spendBundleUtxos missing m rows c = .ok c') :
    c'.Within P := by
  refine foldlM_preserves (P := Coins.Within P) ?_ h hc
  intro row hrow c₁ c₂ hc₁ hstep
  have hdelete := hc₁.deleteUtxo row.1
  split at hstep
  · cases hstep
  · rename_i heq
    rw [heq] at hdelete
    rw [← Except.ok.inj hstep]
    exact hdelete.putStxo (hrows row hrow) _

theorem spendAllUtxos_within (hc : c.Within P) (m : M6id) : (spendAllUtxos m c).Within P := by
  have hfold : (c.utxos.toList.foldl
      (fun c row => c.putStxo row.1 ⟨row.2, .withdrawal m⟩) c).Within P := by
    refine List.foldlRecOn (motive := Coins.Within P) _ _ hc ?_
    exact fun c₁ hc₁ row hrow => hc₁.putStxo (hc.utxos (mem_toList_iff.mp hrow)) _
  exact ⟨fun h => by simp [spendAllUtxos, Coins.clearUtxos] at h, hfold.stxos⟩

theorem reinstateUtxos_within (hc : c.Within P) (hrows : ∀ row ∈ rows, P row.1) :
    (reinstateUtxos rows c).Within P := by
  refine List.foldlRecOn (motive := Coins.Within P) _ _ hc ?_
  exact fun c₁ hc₁ row hrow => (hc₁.deleteStxo row.1).insertUtxo (hrows row hrow)

theorem within_of_event {h : Nat} {event : BlockEvent} (hs : s.Within P)
    (hdeposit : ∀ d, event = .deposit d → P d.outpoint) (hcase : EventCase h s event s') :
    s'.Within P := by
  cases hcase with
  | deposit d => exact hs.withCoins (hs.coins.insertUtxo (hdeposit d rfl))
  | submitted hcase =>
      cases hcase with
      | pending hpending hentry hlatest hspend hpush =>
          have hrows := hs.bundles hentry
          exact ((hs.withCoins (spendBundleUtxos_within hs.coins hrows hspend)).putBundle
            hrows).setPending none
      | resubmitted hpending hentry hlatest hinfo hpush => exact hs.putBundle (hs.bundles hentry)
      | unknown hpending hentry => exact hs.putBundle (by simp [infoRows])
  | confirmed hcase =>
      cases hcase with
      | again => exact hs
      | submitted hentry hlatest hpush => exact hs.putBundle (hs.bundles hentry)
      | unexpected hentry hlatest hspend hpush =>
          have hrows := hs.bundles hentry
          exact (hs.withCoins (spendBundleUtxos_within hs.coins hrows hspend)).putBundle hrows
      | unknown hheight hentry hlatest hpush =>
          refine (hs.withCoins (spendAllUtxos_within hs.coins _)).putBundle ?_
          exact fun row hrow => hs.coins.utxos (mem_toList_iff.mp hrow)
  | failed hcase =>
      cases hcase with
      | again => exact hs
      | submitted hentry hlatest hfailed hpush =>
          have hrows := hs.bundles hentry
          refine PegState.Within.putBundle ?_ hrows
          exact ⟨reinstateUtxos_within hs.coins hrows, hs.bundles⟩
      | unspent hentry hlatest hunspent hpush => exact hs.putBundle (hs.bundles hentry)

theorem within_connect {B : BundleLib} {height : Option Nat} {data : TwoWayPegData}
    (hs : s.Within P) (hdeposits : ∀ d : Deposit, P d.outpoint)
    (h : connect B height s data = .ok s') : s'.Within P := by
  simp only [connect, connectEvents, bind_eq_ok_iff] at h
  obtain ⟨blockHeight, -, acc, hevents, hcreate⟩ := h
  have hacc : acc.state.Within P := by
    refine foldlM_preserves (P := fun acc : ConnectAcc => acc.state.Within P) ?_ hevents hs
    exact fun event _ a a' ha hstep =>
      within_of_event ha (fun d _ => hdeposits d) (connectEvent_cases hstep)
  have hrecorded : (recordEvents acc blockHeight).Within P := ⟨hacc.coins, hacc.bundles⟩
  have hcase := createPendingBundle_cases hcreate
  generalize recordEvents acc blockHeight = recorded at hrecorded hcase
  cases hcase with
  | nothing => exact hrecorded
  | created hgap hpending hcollect hstatus =>
      refine (hrecorded.setPending _).putBundle ?_
      exact fun row hrow =>
        hrecorded.coins.utxos (utxos_of_collectWithdrawalBundle hcollect row hrow)

end TwoWayPeg

end Truthcoin
