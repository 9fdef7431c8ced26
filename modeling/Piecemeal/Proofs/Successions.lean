/-
# Values one after another

A decoder is used for one value after another.  On a slice each value is decoded from the state in
which the value before it has left the decoder, and from the bytes that it has left,
`Decoder.InTurn`.  A stream comes in chunks, and behind a value its user may cut what is left of it
as he likes before he goes on, `Decoder.FedInTurn`.  The cuts do not show in the values,
`Splits.fedInTurn_iff`:

    d.FedInTurn state (chunk :: chunks) values last rest ↔
      d.InTurn state (chunk ++ chunks.flatten) values last rest
-/
import Piecemeal.Proofs.Resumption

namespace Piecemeal.Decoder

variable {α : Type} {d : Decoder α}

/-- From this state on the decoder answers these values to the bytes, one after another.  Then it is
in the state `last`, with this rest of the bytes. -/
inductive InTurn (d : Decoder α) : d.State → Bytes → List α → d.State → Bytes → Prop
  | nil (state : d.State) (bytes : Bytes) : InTurn d state bytes [] state bytes
  | cons {state next last : d.State} {bytes middle rest : Bytes} {value : α} {values : List α} :
      d.Ends state bytes (.reached (.done value) next middle) →
      InTurn d next middle values last rest →
      InTurn d state bytes (value :: values) last rest

/-- The same of a stream that comes in chunks.  What is left of it behind a value comes in other
chunks, or in the same ones. -/
inductive FedInTurn (d : Decoder α) : d.State → List Bytes → List α → d.State → Bytes → Prop
  | nil (state : d.State) (chunks : List Bytes) : FedInTurn d state chunks [] state chunks.flatten
  | cons {state next last : d.State} {chunk piece rest : Bytes} {chunks pieces : List Bytes}
      {value : α} {values : List α} :
      d.Fed state (chunk :: chunks) (.reached (.done value) next (piece ++ pieces.flatten)) →
      FedInTurn d next (piece :: pieces) values last rest →
      FedInTurn d state (chunk :: chunks) (value :: values) last rest

theorem Splits.fedInTurn_iff (hd : d.Splits) {state last : d.State} {chunk rest : Bytes}
    {chunks : List Bytes} {values : List α} :
    d.FedInTurn state (chunk :: chunks) values last rest ↔
      d.InTurn state (chunk ++ chunks.flatten) values last rest := by
  constructor
  · intro h
    generalize hall : chunk :: chunks = all at h
    induction h generalizing chunk chunks with
    | nil state all =>
        subst hall
        exact .nil state _
    | cons hvalue _ ih =>
        cases hall
        exact .cons (hd.fed_iff.1 hvalue) (ih rfl)
  · intro h
    generalize hstream : chunk ++ chunks.flatten = stream at h
    induction h generalizing chunk chunks with
    | nil state stream =>
        subst hstream
        exact .nil state (chunk :: chunks)
    | @cons state next last stream middle rest value values hvalue _ ih =>
        subst hstream
        -- what is left comes in one piece
        have hpiece : middle ++ ([] : List Bytes).flatten = middle := List.append_nil middle
        refine .cons (hd.fed_iff.2 ?_) (ih hpiece)
        rw [hpiece]
        exact hvalue

end Piecemeal.Decoder
