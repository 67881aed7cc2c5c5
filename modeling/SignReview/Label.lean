import SignReview.Bytes

/-!
# Labels

Friendly words for well-known paths and values, and the paths whose values are amounts.
-/

namespace SignReview.Label

/-- Paths with a friendly name. -/
def paths : List (String × String) := [
  ("chain_id", "Chain ID"),
  ("account_number", "Account"),
  ("sequence", "Sequence"),
  ("memo", "Memo"),
  ("fee/amount", "Fee"),
  ("fee/gas", "Gas"),
  ("msgs/type", "Type"),
  ("msgs/inputs/address", "Source Address"),
  ("msgs/inputs/coins", "Source Coins"),
  ("msgs/outputs/address", "Dest Address"),
  ("msgs/outputs/coins", "Dest Coins"),
  ("msgs/value/from_address", "From"),
  ("msgs/value/to_address", "To"),
  ("msgs/value/amount", "Amount"),
  ("msgs/value/delegator_address", "Delegator"),
  ("msgs/value/validator_address", "Validator"),
  ("msgs/value/validator_src_address", "Validator Source"),
  ("msgs/value/validator_dst_address", "Validator Dest"),
  ("msgs/value/description", "Description"),
  ("msgs/value/initial_deposit/amount", "Deposit Amount"),
  ("msgs/value/initial_deposit/denom", "Deposit Denom"),
  ("msgs/value/proposal_type", "Proposal"),
  ("msgs/value/proposer", "Proposer"),
  ("msgs/value/title", "Title"),
  ("msgs/value/depositer", "Sender"),
  ("msgs/value/proposal_id", "Proposal ID"),
  ("msgs/value/voter", "Voter"),
  ("msgs/value/option", "Option")]

def values : List (String × String) := [
  ("cosmos-sdk/MsgSend", "Send"),
  ("cosmos-sdk/MsgDelegate", "Delegate"),
  ("cosmos-sdk/MsgUndelegate", "Undelegate"),
  ("cosmos-sdk/MsgBeginRedelegate", "Redelegate"),
  ("cosmos-sdk/MsgSubmitProposal", "Propose"),
  ("cosmos-sdk/MsgDeposit", "Deposit"),
  ("cosmos-sdk/MsgVote", "Vote"),
  ("cosmos-sdk/MsgWithdrawDelegationReward", "Withdraw Reward"),
  ("cosmos-sdk/MsgWithdrawValidatorCommission", "Withdraw Val. Commission"),
  ("cosmos-sdk/MsgSetWithdrawAddress", "Withdraw Set Address"),
  ("cosmos-sdk/MsgMultiSend", "Multi Send")]

/-- Paths whose values are coins or lists of coins. -/
def amountPaths : List String := [
  "fee/amount",
  "msgs/inputs/coins",
  "msgs/outputs/coins",
  "msgs/value/inputs/coins",
  "msgs/value/outputs/coins",
  "msgs/value/amount",
  "tip/amount"]

def find? (table : List (String × String)) (bytes : Bytes) : Option Bytes :=
  (table.find? fun entry => Bytes.ofString entry.1 == bytes).map fun entry =>
    Bytes.ofString entry.2

def ofPath? (path : Bytes) : Option Bytes := find? paths path

def ofValue? (value : Bytes) : Option Bytes := find? values value

def isAmount (path : Bytes) : Bool := amountPaths.any fun p => Bytes.ofString p == path

end SignReview.Label
