/-!
# What can go wrong

One constructor for each cause of a refusal.  `Error.message` is the wording shown to a user.
-/

namespace SignReview

/-- A reason to refuse a transaction, or a request for a part of it. -/
inductive Error
  /-- The part asked for does not exist, or nothing has been validated yet. -/
  | noData
  /-- A text does not fit into its capacity. -/
  | bufferOverflow
  /-- A token reaches past the end of the document. -/
  | unexpectedBufferEnd
  /-- A value is of the wrong kind. -/
  | unexpectedType
  /-- A value of the right kind is not acceptable. -/
  | unexpectedValue
  /-- A number is too large. -/
  | valueOutOfRange
  /-- A list or map has too few or too many entries. -/
  | unexpectedNumberItems
  /-- A field has the wrong name. -/
  | unexpectedField
  /-- The transaction is for a chain that is never signed for. -/
  | unexpectedChain
  /-- There is no item of this number. -/
  | displayIdxOutOfRange
  /-- The item has no page of this number. -/
  | displayPageOutOfRange
  /-- The JSON text ends too early. -/
  | incompleteJson
  /-- The JSON text holds no value. -/
  | zeroTokens
  /-- The JSON text has more values and names than allowed. -/
  | tooManyTokens
  /-- An octet stands where JSON does not allow it. -/
  | unexpectedCharacters
  /-- A transaction of `size` octets is longer than `limit`. -/
  | bufferTooLarge (size limit : Nat)
  /-- A chunk does not fit into the intake buffer. -/
  | transactionTooBig
  /-- There is whitespace outside the strings. -/
  | containsWhitespace
  /-- The names of an object are not in ascending order. -/
  | notSorted
  /-- The top level has no `chain_id`. -/
  | missingChainId
  /-- The top level has no `sequence`. -/
  | missingSequence
  /-- The top level has no `fee`. -/
  | missingFee
  /-- The top level has no `msgs`. -/
  | missingMsgs
  /-- The top level has no `account_number`. -/
  | missingAccountNumber
  /-- The top level has no `memo`. -/
  | missingMemo
  /-- A search has passed all leaves. -/
  | queryNoResults
  /-- The CBOR data ends too early, or goes on after the value. -/
  | cborUnexpectedEof
  /-- The CBOR data is malformed. -/
  | cborUnexpected
  /-- The keys of a screen are not in ascending order. -/
  | cborNotCanonical
  deriving DecidableEq, Repr

def Error.message : Error → String
  | .noData => "no data"
  | .bufferOverflow => "buffer overflow"
  | .unexpectedBufferEnd => "unexpected buffer end"
  | .unexpectedType => "unexpected type"
  | .unexpectedValue => "unexpected value"
  | .valueOutOfRange => "value out of range"
  | .unexpectedNumberItems => "unexpected number of items"
  | .unexpectedField => "unexpected field"
  | .unexpectedChain => "unexpected chain"
  | .displayIdxOutOfRange => "display index out of range"
  | .displayPageOutOfRange => "display page out of range"
  | .incompleteJson => "JSON is incomplete"
  | .zeroTokens => "zero tokens"
  | .tooManyTokens => "too many tokens"
  | .unexpectedCharacters => "unexpected characters"
  | .bufferTooLarge size limit => s!"buffer of {size} bytes exceeds the {limit} byte limit"
  | .transactionTooBig => "transaction too big"
  | .containsWhitespace => "JSON contains whitespace"
  | .notSorted => "JSON dictionaries are not sorted"
  | .missingChainId => "JSON missing chain_id"
  | .missingSequence => "JSON missing sequence"
  | .missingFee => "JSON missing fee"
  | .missingMsgs => "JSON missing msgs"
  | .missingAccountNumber => "JSON missing account_number"
  | .missingMemo => "JSON missing memo"
  | .queryNoResults => "query returned no results"
  | .cborUnexpectedEof => "CBOR ended unexpectedly"
  | .cborUnexpected => "unexpected CBOR data"
  | .cborNotCanonical => "CBOR is not canonical"

end SignReview
