import Baerly.Gc
import Baerly.LogRetention
import Baerly.Query
import Baerly.Since

/-
  The running system: any number of calls over one collection, interleaved at every `await`.

  A call is spawned as a thread; a crash is a thread that is not scheduled again.  The store
  delivers sent messages whenever it likes (`deliver`).  `accepts` is what callers promise: the
  tail a maintenance call is handed was observed, an insert guard comes from `runInsert`, a
  pre-provisioned manifest is the zero state, and the ledger of a fresh bucket holds no rows of
  the legacy log collector, because nobody emits them.
-/

namespace Baerly

open Async

/-- Everything that may be called on a collection. -/
inductive Call where
  | commit (cfg : WriterConfig) (input : CommitInput)
  | insert (ctx : InsertContext) (members : List (JsString × Doc)) (uuidv7 : JsString)
      (mintedId : Option JsString)
  | read (state : QueryState)
  | subscribe (timeoutMs ticks calls : Nat) (cursor : Cursor)
  | create (initial : CurrentJson)
  | compact (opts : CompactOptions)
  | refresh (nextSeq : Nat) (stampWarnedSeq : Bool)
  | retire (opts : RetireOptions)
  | claim (owner : JsString)
  | gc (opts : RunGcOptions)

/-- What each call resolves with. -/
abbrev Res : Call → Type
  | .commit _ _ => CommitSuccess
  | .insert _ _ _ _ => JsString × Option CommitSuccess
  | .read _ => ReadRows
  | .subscribe _ _ _ _ => List SinceResponse
  | .create _ => CurrentJson
  | .compact _ => CompactResult
  | .refresh _ _ => Unit
  | .retire _ => Nat
  | .claim _ => CurrentJson
  | .gc _ => RunGcResult

/-- The program of a call; thread `t` commits under session `t`. -/
def body (codec : Codec) (c : Collection) (t : Nat) : (call : Call) → Task (Res call)
  | .commit cfg input => commit cfg c t input
  | .insert ctx members uuidv7 mintedId =>
    runInsertOutcome codec c t ctx members uuidv7 mintedId
  | .read state => runReadRows codec c .scan state
  | .subscribe timeoutMs ticks calls cursor => subscribe c timeoutMs ticks calls cursor
  | .create initial => createCurrentJson c initial
  | .compact opts => compact codec c opts
  | .refresh nextSeq stampWarnedSeq => refreshTailHint c nextSeq stampWarnedSeq
  | .retire opts => retireLogRange c opts
  | .claim owner => claimWriter c owner
  | .gc opts => runGc c opts

/-- The calls of one collection over the bucket, accepted under `accepts`. -/
def system (codec : Codec) (c : Collection) (accepts : Call → World → Bool) :
    Machine World Op Resp Err Call Res where
  Pick := Pick
  exec := exec
  Env := Nat
  env := deliver
  body := body codec c
  accepts := accepts

/-- The zero-state manifest, up to its generation and fence. -/
def CurrentJson.isZeroState (m : CurrentJson) : Bool :=
  m.snapshot = none ∧ m.tailHint = 0 ∧ m.logSeqStart = 0 ∧ logDeleteFloorOf m = 0

/-- What callers promise in the deployed system. -/
def deployedAccepts : Call → World → Bool
  | .commit _ input, _ => input.insertGuard.isNone
  | .create initial, _ => initial.isZeroState
  | .compact opts, w => opts.knownTail.getD 0 ≤ w.tail
  | .refresh nextSeq _, w => nextSeq ≤ w.tail
  | _, _ => true

/-- The deployed system. -/
abbrev deployed (codec : Codec) (c : Collection) : Machine World Op Resp Err Call Res :=
  system codec c deployedAccepts

/-- The pool of the deployed system. -/
abbrev State := Pool World Op Resp Err Call Res

/-- A fresh bucket with nobody running. -/
def State.init : State := ⟨World.empty, []⟩

/-- The states the deployed system can get into. -/
def Reachable (codec : Codec) (c : Collection) (σ : State) : Prop :=
  ∃ acts, (deployed codec c).run State.init acts = some σ

end Baerly
