import ZkmProver.Scheduler

/-! # Formats — what the provers of `prover_v2` read and write

    The receipts are byte strings on their way through the stage.  A node
    decodes them by the flags of its request: in the leaf layer as shard
    proofs, or as the witness of one batch of deferred proofs, above it as
    compressed proofs in JSON.  The flags were set when the agg tasks were
    planned, and the bytes come from three producers: the root prover, the
    executor by way of the segment directory, and the agg prover. -/

namespace ZkmProver

/-! ## Codecs

    Of an encoder and its decoder one thing is known: what was encoded
    decodes.  A decoder may accept more than its encoder produces, and two
    codecs may overlap. -/

/-- An encoding of `α` in `β`. -/
structure Codec (β α : Type) where
  encode : α → β
  decode : β → Option α
  decode_encode : ∀ x, decode (encode x) = some x

namespace Codec

variable {β α : Type} {c : Codec β α}

/-- The value is an encoding. -/
def Tags (c : Codec β α) (b : β) : Prop := ∃ x, b = c.encode x

/-- Tagged bytes are decoded. -/
theorem Tags.decode {b : β} (h : c.Tags b) : ∃ x, c.decode b = some x := by
  obtain ⟨x, rfl⟩ := h
  exact ⟨x, c.decode_encode x⟩

end Codec

/-- A decoder that accepts every element of a list accepts the list. -/
theorem mapM_some {α β : Type} {f : β → Option α} : ∀ {bs : List β},
    (∀ b ∈ bs, ∃ x, f b = some x) → ∃ xs, bs.mapM f = some xs := by
  intro bs
  induction bs with
  | nil => exact fun _ => ⟨[], rfl⟩
  | cons b bs ih =>
      intro h
      obtain ⟨x, hx⟩ := h b (List.mem_cons_self ..)
      obtain ⟨xs, hxs⟩ := ih fun b' hb' => h b' (List.mem_cons_of_mem _ hb')
      refine ⟨x :: xs, ?_⟩
      rw [List.mapM_cons, hx, hxs]
      rfl

/-! ## The encodings -/

/-- `ZKMProof`: a compressed proof, or one of another kind. -/
inductive ZKMProof (R X : Type) where
  | Compressed (proof : R)
  | other (proof : X)

/-- `ZKMProof::Compressed(proof) => *proof`, where all else is unreachable. -/
def ZKMProof.compressed {R X : Type} : ZKMProof R X → Option R
  | .Compressed proof => some proof
  | .other _ => none

/-- What a byte string is, by the code that makes it: the root prover, the
    agg prover, and the executor for the other two. -/
inductive Content where
  | shardProof
  | compressed
  | deferredWitness
  | vk

/-- The encodings: with bincode shard proofs, deferred witnesses, keys and
    the receipts of a request, and in JSON `ZKMProof`. -/
structure Formats (β P W K R X : Type) where
  shardProof : Codec β P
  deferredWitness : Codec β W
  vk : Codec β K
  receipt : Codec β (R × K)
  proof : Codec β (ZKMProof R X)

/-! ## The agg prover -/

/-- `AggContext`, what the node gets of an agg task. -/
structure AggContext (β : Type) where
  vk : β
  proofs : List β
  isComplete : Bool
  isFirstShard : Bool
  isLeafLayer : Bool
  isDeferred : Bool

/-- What `prover_client::aggregate` sends and `aggregate` unpacks. -/
def AggTask.context {β : Type} (t : AggTask β) : AggContext β where
  vk := t.vk
  proofs := t.inputs.map (·.receiptInput)
  isComplete := t.isFinal
  isFirstShard := t.isFirstShard
  isLeafLayer := t.isLeafLayer
  isDeferred := t.isDeferred

/-- `ZKMCircuitWitness` -/
inductive CircuitWitness (P W K R : Type) where
  | Core (vk : K) (shardProofs : List P) (isComplete isFirstShard : Bool)
  | Deferred (witness : W)
  | Compress (proofs : List R) (isComplete : Bool)

variable {β P W K R X : Type}

namespace Formats

variable (F : Formats β P W K R X)

/-- A reduced proof out of its JSON. -/
def reduced (bytes : β) : Option R :=
  (F.proof.decode bytes).bind ZKMProof.compressed

/-- The input of `AggProver::prove`; `none` is an error or a panic. -/
def aggInput (ctx : AggContext β) : Option (CircuitWitness P W K R) :=
  if ctx.isLeafLayer then
    if !ctx.isDeferred then do
      let shardProofs ← ctx.proofs.mapM F.shardProof.decode
      let vk ← F.vk.decode ctx.vk
      some (.Core vk shardProofs ctx.isComplete ctx.isFirstShard)
    else
      (ctx.proofs.head?.bind F.deferredWitness.decode).map .Deferred
  else (ctx.proofs.mapM F.reduced).map (.Compress · ctx.isComplete)

/-- `AggProver::prove`; `compress` is the proof system. -/
def aggProve (compress : CircuitWitness P W K R → Option R)
    (ctx : AggContext β) : Option β :=
  ((F.aggInput ctx).bind compress).map fun proof =>
    F.proof.encode (.Compressed proof)

/-- `RootProver::prove` behind its proof system. -/
def rootProve (proof : Option P) : Option β := proof.map F.shardProof.encode

/-- The input of `SnarkProver::prove`. -/
def snarkInput (fromInput : Bool) (aggReceipt : β) : Option R :=
  if fromInput then (F.receipt.decode aggReceipt).map (·.1)
  else F.reduced aggReceipt

/-! ## Tags -/

/-- The bytes can have been made by that code. -/
def Tags : Content → β → Prop
  | .shardProof, bytes => ∃ proof, F.rootProve proof = some bytes
  | .compressed, bytes => ∃ compress ctx, F.aggProve compress ctx = some bytes
  | .deferredWitness, bytes => F.deferredWitness.Tags bytes
  | .vk, bytes => F.vk.Tags bytes

variable {F}

/-- The proof of a shard is read as one. -/
theorem Tags.shardProof {bytes : β} (h : F.Tags .shardProof bytes) :
    ∃ p, F.shardProof.decode bytes = some p := by
  obtain ⟨proof, h⟩ := h
  obtain ⟨p, _, rfl⟩ := Option.map_eq_some_iff.mp h
  exact ⟨p, F.shardProof.decode_encode p⟩

/-- A compressed proof is read as one. -/
theorem Tags.reduced {bytes : β} (h : F.Tags .compressed bytes) :
    ∃ r, F.reduced bytes = some r := by
  obtain ⟨compress, ctx, h⟩ := h
  obtain ⟨r, _, rfl⟩ := Option.map_eq_some_iff.mp h
  refine ⟨r, ?_⟩
  rw [Formats.reduced, F.proof.decode_encode]
  rfl

end Formats

/-- The inputs of an agg task are of the kinds that its flags say. -/
structure Fits (made : Content → β → Prop) (t : AggTask β) : Prop where
  core     : t.isLeafLayer = true → t.isDeferred = false →
    (∀ i ∈ t.inputs, made .shardProof i.receiptInput) ∧ made .vk t.vk
  deferred : t.isLeafLayer = true → t.isDeferred = true →
    ∃ i, t.inputs = [i] ∧ made .deferredWitness i.receiptInput
  compress : t.isLeafLayer = false →
    ∀ i ∈ t.inputs, made .compressed i.receiptInput

/-- A task fits for more than was made. -/
theorem Fits.mono {made made' : Content → β → Prop} {t : AggTask β}
    (h : Fits made t) (hmade : ∀ k b, made k b → made' k b) :
    Fits made' t where
  core := by
    intro hleaf hdef
    obtain ⟨hproofs, hkey⟩ := h.core hleaf hdef
    exact ⟨fun i hi => hmade _ _ (hproofs i hi), hmade _ _ hkey⟩
  deferred := by
    intro hleaf hdef
    obtain ⟨i, hin, hwitness⟩ := h.deferred hleaf hdef
    exact ⟨i, hin, hmade _ _ hwitness⟩
  compress := fun hleaf i hi => hmade _ _ (h.compress hleaf i hi)

/-- **DECODED**: no branch of the agg prover sees another format. -/
theorem Fits.decoded {F : Formats β P W K R X} {t : AggTask β}
    (h : Fits F.Tags t) : ∃ input, F.aggInput t.context = some input := by
  have receipts : ∀ {p : β → Prop}, (∀ i ∈ t.inputs, p i.receiptInput) →
      ∀ b ∈ t.inputs.map (·.receiptInput), p b := by
    intro p hall b hb
    obtain ⟨i, hi, rfl⟩ := List.mem_map.mp hb
    exact hall i hi
  rw [Formats.aggInput, AggTask.context]
  cases hleaf : t.isLeafLayer with
  | false =>
      obtain ⟨proofs, hproofs⟩ := mapM_some fun b hb =>
        (receipts (h.compress hleaf) b hb).reduced
      refine ⟨.Compress proofs t.isFinal, ?_⟩
      dsimp only
      rw [if_neg Bool.false_ne_true, hproofs]
      rfl
  | true =>
      rw [if_pos rfl]
      cases hdef : t.isDeferred with
      | false =>
          obtain ⟨hproofs, hkey⟩ := h.core hleaf hdef
          obtain ⟨proofs, hproofs⟩ := mapM_some fun b hb =>
            (receipts hproofs b hb).shardProof
          obtain ⟨key, hkey⟩ := Codec.Tags.decode hkey
          refine ⟨.Core key proofs t.isFinal t.isFirstShard, ?_⟩
          dsimp only
          rw [Bool.not_false, if_pos rfl, hproofs, hkey]
          rfl
      | true =>
          obtain ⟨i, hin, htag⟩ := h.deferred hleaf hdef
          obtain ⟨witness, hw⟩ := Codec.Tags.decode htag
          refine ⟨.Deferred witness, ?_⟩
          dsimp only
          rw [Bool.not_true, if_neg Bool.false_ne_true, hin, List.map_singleton,
            List.head?_cons, Option.bind_some, hw]
          rfl

end ZkmProver
