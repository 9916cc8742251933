import Baerly.Gc
import Baerly.Retry

/-
  The writes of the storage adapters: `adapter-node/src/s3-http.ts`, `adapter-node/src/gcs-http.ts`,
  `adapter-node/src/http-transport.ts` and `adapter-cloudflare/src/r2-binding-storage.ts`.

  PROGRAM: one attempt of a `put` or a `delete` sends one request.  What comes of it is a response, an
  error of `fetch` or of the signer, or for R2 what the binding resolves or rejects with.  The adapter
  turns that into a result or a rejection; `retryStorageCall` decides whether there is another attempt.

  `verdict` is no code of this repository: it is what the store did with a request it answers that way.

  Parsing of an error body is a parameter, and so is the date of a response, which is held parsed.
  `Retry-After` only lengthens a wait.
-/

namespace Baerly

/-! ## Requests on the wire -/

/-- The precondition of a `PUT`: `ifNoneMatch: "*"`, `ifMatch`, or none. -/
inductive Precondition where
  | free | ifNoneMatch | ifMatch
  deriving DecidableEq

/-- A write as an adapter sees it. -/
inductive WireVerb where
  | put (condition : Precondition)
  | delete
  deriving DecidableEq

namespace Req

/-- Which call of the `Storage` interface a request is. -/
def wireVerb : Req → WireVerb
  | .createCurrent _ => .put .ifNoneMatch
  | .casCurrent _ _ _ => .put .ifMatch
  | .createLog _ _ _ => .put .ifNoneMatch
  | .putSnapshot _ _ => .put .free
  | .createPending _ => .put .ifNoneMatch
  | .casPending _ _ => .put .ifMatch
  | .createMarker _ => .put .ifNoneMatch
  | .deleteMarker _ => .delete
  | .deleteLog _ => .delete
  | .deleteSnapshot _ => .delete

/-- `opts?.ifNoneMatch === "*"`. -/
def conditionalCreate (r : Req) : Bool := r.wireVerb = .put .ifNoneMatch

/-- The key it addresses. -/
def objectKey (c : Collection) : Req → Key
  | .createCurrent _ => c.currentJsonKey
  | .casCurrent _ _ _ => c.currentJsonKey
  | .createLog seq _ _ => logObjectKey c.collectionPrefix seq
  | .putSnapshot key _ => key
  | .createPending _ => gcPendingKey c
  | .casPending _ _ => gcPendingKey c
  | .createMarker key => key
  | .deleteMarker key => key
  | .deleteLog seq => logObjectKey c.collectionPrefix seq
  | .deleteSnapshot key => key

end Req

/-- What the store did with a request, as far as the answer to it tells. -/
inductive Verdict where
  | applied
  /-- Its precondition was false. -/
  | refused
  /-- It was not applied, and will not be. -/
  | turnedAway
  | unknown
  deriving DecidableEq

/-- `StoragePutResult`, without a version id. -/
structure StoragePutResult where
  etag : JsString
  serverDate : Option JsString

/-- An adapter's writes.  `Heard` is what comes of one attempt, `Answer` what its attempts resolve
    with, and `settle` what the method does after `retryStorageCall`. -/
structure Adapter where
  Heard : Type
  Answer : Type
  retries : Option JsNumber
  attempt : Collection → Req → Heard → Except Rejection Answer
  settle : Collection → Req → Answer → Except Err (Option JsString)
  verdict : Req → Heard → Verdict

/-! ## HTTP -/

namespace Http

/-- What the adapters look at in a response. -/
structure Response where
  status : Nat
  etag : Option JsString
  generation : Option JsString
  date : Option JsString
  /-- `res.text()`, which rejects when the body breaks off. -/
  text : Except String String

/-- What a signer rejects with. -/
inductive SignError where
  | accessDenied (message : String)
  | invalidConfig (message : String)
  | invalidResponse (message : String)
  | networkError (message : String)
  | other (message : String)

/-- What comes of one request. -/
inductive Exchange where
  /-- `sign` rejected: nothing was sent. -/
  | unsigned (e : SignError)
  /-- `fetch` rejected. -/
  | unreachable (message : String)
  | answered (res : Response)

/-- `ParsedS3Error`. -/
structure S3Error where
  code : Option String
  message : Option String

/-- `parseS3Error`: reading an error body. -/
abbrev ParseS3Error := String → Option S3Error

def SignError.toErr : SignError → Err
  | .accessDenied m => .mk .accessDenied m
  | .invalidConfig m => .mk .invalidConfig m
  | .invalidResponse m => .mk .invalidResponse m
  | .networkError m => .mk .networkError m
  | .other m => .other m

/-- `#dispatch`. -/
def dispatch : Exchange → Except Rejection Response
  | .unsigned e => .error ⟨e.toErr, false⟩
  | .unreachable message => .error ⟨.mk .networkError message, false⟩
  | .answered res => .ok res

/-- `isThrottle`. -/
def isThrottle (parseS3Error : ParseS3Error) (status : Nat) (body : String) : Bool :=
  status = 429 ∨ (status = 503 ∧ (parseS3Error body).bind (·.code) = some "SlowDown")

/-- `xmlErrorDetail`. -/
def xmlErrorDetail (parseS3Error : ParseS3Error) (status : Nat) (body : String) : String :=
  match parseS3Error body with
  | some parsed =>
    let code := parsed.code.getD "UnknownError"
    match parsed.message with
    | some message => s!"{status} {code}: {message}"
    | none => s!"{status} {code}"
  | none => s!"{status} {body}"

/-- `mapStorageError`. -/
def mapStorageError (parseS3Error : ParseS3Error) (res : Response) (verb : String) (key : Key) :
    Rejection :=
  if res.status = 403 then ⟨.mk .accessDenied s!"{verb} {showKey key}: 403", false⟩
  else
    match res.text with
    | .error message => ⟨.other message, false⟩
    | .ok body =>
      if res.status = 429 ∨ 500 ≤ res.status then
        ⟨.mk .networkError s!"{verb} {showKey key}: {res.status} {body}",
          isThrottle parseS3Error res.status body⟩
      else
        ⟨.mk .invalidResponse
          s!"{verb} {showKey key}: {xmlErrorDetail parseS3Error res.status body}", false⟩

/-- The end of both adapters' `put`: the version header is there, or the response is no good. -/
def putResult (header : String) (key : Key) (version : Option JsString) (res : Response) :
    Except Rejection StoragePutResult :=
  match version with
  | some etag => .ok ⟨etag, res.date⟩
  | none => .error ⟨.mk .invalidResponse s!"PUT {showKey key}: missing {header}", false⟩

/-- One attempt of `S3HttpStorage.put`. -/
def s3Put (parseS3Error : ParseS3Error) (key : Key) (condition : Precondition) (ifMatch : String)
    (res : Response) : Except Rejection StoragePutResult :=
  if res.status = 412 then
    .error ⟨.mk .writeConflict s!"PUT {showKey key}: precondition failed", false⟩
  else if res.status = 409 ∧ condition ≠ .free then
    .error ⟨.mk .networkError (s!"PUT {showKey key}: 409 ConditionalRequestConflict (contended " ++
      "conditional write; retryable)"), false⟩
  else if res.status = 404 ∧ condition = .ifMatch then
    .error ⟨.mk .writeConflict (s!"PUT {showKey key}: precondition failed (ifMatch={ifMatch} but " ++
      "key does not exist)"), false⟩
  else if res.status ≠ 200 ∧ res.status ≠ 204 then
    .error (mapStorageError parseS3Error res "PUT" key)
  else putResult "ETag" key res.etag res

/-- One attempt of `GcsHttpStorage.put`. -/
def gcsPut (parseS3Error : ParseS3Error) (key : Key) (res : Response) :
    Except Rejection StoragePutResult :=
  if res.status = 412 then
    .error ⟨.mk .writeConflict s!"PUT {showKey key}: precondition failed", false⟩
  else if res.status ≠ 200 ∧ res.status ≠ 204 then
    .error (mapStorageError parseS3Error res "PUT" key)
  else putResult "x-goog-generation" key res.generation res

/-- One attempt of `delete`, of either adapter. -/
def delete (parseS3Error : ParseS3Error) (key : Key) (res : Response) : Except Rejection Unit :=
  if res.status ≠ 200 ∧ res.status ≠ 204 ∧ res.status ≠ 404 then
    .error (mapStorageError parseS3Error res "DELETE" key)
  else .ok ()

/-- What a response says.  A `403`, a `429` and S3's `503 SlowDown` are answered in front of the
    store; a `409` and any other failure may follow a write that landed. -/
def verdict (parseS3Error : ParseS3Error) (verb : WireVerb) (res : Response) : Verdict :=
  if res.status = 403 ∨ res.status = 429 then .turnedAway
  else if res.status = 503 ∧
      (res.text.toOption.bind parseS3Error).bind (·.code) = some "SlowDown" then .turnedAway
  else if res.status = 200 ∨ res.status = 204 then .applied
  else
    match verb with
    | .put condition =>
      if res.status = 412 then .refused
      else if res.status = 404 ∧ condition = .ifMatch then .refused
      else .unknown
    | .delete => if res.status = 404 then .applied else .unknown

/-- What came of a request says. -/
def exchangeVerdict (parseS3Error : ParseS3Error) (verb : WireVerb) : Exchange → Verdict
  | .unsigned _ => .turnedAway
  | .unreachable _ => .unknown
  | .answered res => verdict parseS3Error verb res

end Http

/-- `S3HttpStorage`; `ifMatch` shows the tag of a version in a message. -/
def s3Storage (parseS3Error : Http.ParseS3Error) (ifMatch : Req → String)
    (retries : Option JsNumber) : Adapter where
  Heard := Http.Exchange
  Answer := Option StoragePutResult
  retries := retries
  attempt c r heard :=
    (Http.dispatch heard).bind fun res =>
      match r.wireVerb with
      | .put condition =>
        (Http.s3Put parseS3Error (r.objectKey c) condition (ifMatch r) res).map some
      | .delete => (Http.delete parseS3Error (r.objectKey c) res).map fun _ => none
  settle _ _ answer := .ok (answer.bind (·.serverDate))
  verdict r := Http.exchangeVerdict parseS3Error r.wireVerb

/-- `GcsHttpStorage`. -/
def gcsStorage (parseS3Error : Http.ParseS3Error) (retries : Option JsNumber) : Adapter where
  Heard := Http.Exchange
  Answer := Option StoragePutResult
  retries := retries
  attempt c r heard :=
    (Http.dispatch heard).bind fun res =>
      match r.wireVerb with
      | .put _ => (Http.gcsPut parseS3Error (r.objectKey c) res).map some
      | .delete => (Http.delete parseS3Error (r.objectKey c) res).map fun _ => none
  settle _ _ answer := .ok (answer.bind (·.serverDate))
  verdict r := Http.exchangeVerdict parseS3Error r.wireVerb

/-! ## The R2 binding -/

namespace R2

/-- What one call of the binding comes to; a `put` resolves with no object if its precondition is
    false, a `delete` with none ever. -/
inductive BindingCall where
  | rejected (message : String)
  | resolved (object : Option StoragePutResult)

/-- `.` does not match a line terminator. -/
def endsLine (ch : Char) : Bool :=
  ch.toNat = 10 ∨ ch.toNat = 13 ∨ ch.toNat = 0x2028 ∨ ch.toNat = 0x2029

/-- `/word…/`: the word stands somewhere, and `rest` matches behind it. -/
def anywhere (word : String) (rest : List Char → Bool) (text : List Char) : Bool :=
  text.tails.any fun t => word.toList.isPrefixOf t && rest (t.drop word.length)

/-- `/.*word…/`: the word stands further on in the line, and `rest` matches behind it. -/
def furtherOn (word : String) (rest : List Char → Bool) : List Char → Bool
  | [] => false
  | ch :: text =>
    (word.toList.isPrefixOf (ch :: text) && rest ((ch :: text).drop word.length)) ||
      (!endsLine ch && furtherOn word rest text)

/-- Matching with the flag `i`; every word looked for is of small letters. -/
def folded (message : String) : List Char := message.toList.map Char.toLower

/-- `/auth|permission|forbidden/i`. -/
def namesAccess (message : String) : Bool :=
  ["auth", "permission", "forbidden"].any fun word =>
    anywhere word (fun _ => true) (folded message)

/-- `/not.*found|no.*such.*bucket/i`. -/
def namesBucket (message : String) : Bool :=
  anywhere "not" (furtherOn "found" fun _ => true) (folded message) ||
    anywhere "no" (furtherOn "such" (furtherOn "bucket" fun _ => true)) (folded message)

/-- One attempt of `#callBinding`. -/
def callBinding (op : String) : BindingCall → Except Rejection (Option StoragePutResult)
  | .resolved object => .ok object
  | .rejected message =>
    if namesAccess message then .error ⟨.mk .accessDenied s!"{op}: {message}", false⟩
    else if namesBucket message then .error ⟨.mk .invalidConfig s!"{op}: {message}", false⟩
    else .error ⟨.mk .networkError s!"{op}: {message}", false⟩

/-- The operation named in a message. -/
def operation (c : Collection) (r : Req) : String :=
  match r.wireVerb with
  | .put _ => s!"PUT {showKey (r.objectKey c)}"
  | .delete => s!"DELETE {showKey (r.objectKey c)}"

/-- What `put` and `delete` make of the answer. -/
def settle (c : Collection) (r : Req) (object : Option StoragePutResult) :
    Except Err (Option JsString) :=
  match r.wireVerb, object with
  | .put _, some result => .ok result.serverDate
  | .put _, none => .error (.mk .writeConflict s!"PUT {showKey (r.objectKey c)}: precondition failed")
  | .delete, _ => .ok none

/-- What the binding says.  An error that names access or the bucket was raised in front of the
    store. -/
def verdict (verb : WireVerb) : BindingCall → Verdict
  | .rejected message => if namesAccess message ∨ namesBucket message then .turnedAway else .unknown
  | .resolved (some _) => .applied
  | .resolved none => if verb = .delete then .applied else .refused

end R2

/-- `r2BindingStorage`. -/
def r2BindingStorage : Adapter where
  Heard := R2.BindingCall
  Answer := Option StoragePutResult
  retries := none
  attempt c r := R2.callBinding (R2.operation c r)
  settle := R2.settle
  verdict r := R2.verdict r.wireVerb

/-- The stores a deployment can choose from. -/
inductive Backend where
  | s3 (parseS3Error : Http.ParseS3Error) (ifMatch : Req → String) (retries : Option JsNumber)
  | gcs (parseS3Error : Http.ParseS3Error) (retries : Option JsNumber)
  | r2

/-- The adapter that speaks to it. -/
def Backend.adapter : Backend → Adapter
  | .s3 parseS3Error ifMatch retries => s3Storage parseS3Error ifMatch retries
  | .gcs parseS3Error retries => gcsStorage parseS3Error retries
  | .r2 => r2BindingStorage

end Baerly
