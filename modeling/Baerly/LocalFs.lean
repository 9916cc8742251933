import Mathlib.Data.List.Defs
import Baerly.JsonOrder
import Baerly.KeyLock
import Baerly.LocalFsKeyCodec
import Baerly.Lib.Interleave

/-
  The bucket in a directory: `LocalFsStorage` of `dev/src/local-fs.ts`, over the file system calls
  it makes.

  PROGRAM: `get` reads a file.  `put` writes a temporary file beside its destination and publishes
  it with `link` (create-only) or `rename`; under `ifMatch` it first reads the file and compares
  etags.  `delete` removes the file.  The mutations of one file run under the keyed mutex.  Before
  any of this the instance makes sure that the directory uses the current key encoding.

  A file system call is one request, except `writeFile`, which first makes an empty file and
  then fills it, so that others can see it unfinished.  A call that fails has not done anything,
  but `writeFile` may leave part of a body behind and `mkdir` part of a path.  Two temporary files
  never get the same name.  A path is the list of its components below the root, and any number of
  instances, spelling the root as they like, work on one directory.

  A key with a slash has its file in a directory below the root, which `put` makes and nothing
  removes.  So the path of another key can be a directory: then there is no file to read or to
  remove, `rename` cannot replace it, and `link` says that it exists.

  Two ghost fields are never read by a program: who was given which temporary name, and `trace`,
  the directory before and after every request, with the call that made it.
-/

namespace Baerly.LocalFs

open Async

abbrev Bytes := List (Fin 256)

/-- The components of a path below the root. -/
abbrev Path := List JsString

abbrev Etag := JsString

/-- The `code` of an `ErrnoException`. -/
inductive ErrnoCode where
  | enoent | eexist | other
  deriving DecidableEq, Repr

structure Errno where
  code : ErrnoCode
  message : String
  deriving DecidableEq, Repr

/-! ## Requests -/

/-- What the adapter asks for. -/
inductive FsOp where
  /-- `signal.aborted`. -/
  | aborted
  /-- `realpath(root)`. -/
  | realpath
  /-- `mkdir(dir, { recursive: true })` of the root or a directory below it. -/
  | mkdir (dir : Path)
  | readFile (path : Path)
  /-- `writeFile`, up to the empty file. -/
  | openFile (path : Path)
  /-- `writeFile`, its body. -/
  | fillFile (path : Path) (body : Bytes)
  | link (existing path : Path)
  | rename (old path : Path)
  | rm (path : Path)
  /-- `findLegacyPaths(root)`. -/
  | findLegacyPaths
  /-- `process.pid`, `Date.now()` and `Math.random()` of a temporary name. -/
  | nonce
  deriving DecidableEq

/-- What it gets back. -/
abbrev FsResp : FsOp → Type
  | .aborted => Bool
  | .realpath => Except Errno JsString
  | .mkdir _ => Except Errno Unit
  | .readFile _ => Except Errno Bytes
  | .openFile _ => Except Errno Unit
  | .fillFile _ _ => Except Errno Unit
  | .link _ _ => Except Errno Unit
  | .rename _ _ => Except Errno Unit
  | .rm _ => Except Errno Unit
  | .findLegacyPaths => Except Errno (Option (List JsString))
  | .nonce => JsString

/-- An `async` function of the adapter. -/
abbrev Io (α : Type) := Prog (LockOp ⊕ FsOp) (LockedResp FsResp) Err α

namespace Io

/-- Await one file system call. -/
def ask (op : FsOp) : Io (FsResp op) := .call (.inr op) .ret

/-- `signal?.throwIfAborted()`. -/
def throwIfAborted (signal : Bool) : Io Unit :=
  if signal then (ask .aborted).bind fun aborted => if aborted then .throw .abort else .ret ()
  else .ret ()

/-- Throw what a pure check throws. -/
def ofExcept {α : Type} : Except Err α → Io α
  | .ok a => .ret a
  | .error e => .throw e

/-- `writeFile(path, body)`. -/
def writeFile (path : Path) (body : Bytes) : Io (Except Errno Unit) :=
  (ask (.openFile path)).bind fun opened =>
    match opened with
    | .error e => .ret (.error e)
    | .ok () => ask (.fillFile path body)

end Io

/-! ## Names -/

/-- `TEMP_PREFIX`. -/
def tempStem : JsString := js ".baerly-tmp-"

/-- `FORMAT_MARKER`. -/
def formatMarker : JsString := js ".baerly-localfs.json"

/-- `tempPathFor`, for the random part of the name. -/
def tempPathFor (finalPath : Path) (nonce : JsString) : Path :=
  finalPath.dropLast ++ [tempStem ++ nonce]

/-- `LEGACY_PATHS_SHOWN`. -/
def legacyPathsShown : Nat := 10

/-- What the adapter is given: the hash of `etagOf`, `normalize("NFC").toLowerCase()`, the decoder
    and the number conversion behind `JSON.parse`, and what `realpath` makes of the root. -/
structure FsConfig where
  etagOf : Bytes → Etag
  fold : JsString → JsString
  decodeText : Bytes → JsString
  numbers : NumberText
  realRoot : JsString

/-- One `LocalFsStorage`: `#root` as its caller spelled it, and `#formatChecked`. -/
structure Instance where
  root : JsString
  formatChecked : Bool
  deriving DecidableEq

/-- A path as text. -/
def pathText (root : JsString) (path : Path) : JsString :=
  root ++ slash :: List.intercalate [slash] path

/-! ## The root -/

/-- `#canonicalRoot`. -/
def canonicalRoot (inst : Instance) : Io JsString :=
  (Io.ask .realpath).bind fun r =>
    match r with
    | .ok root => .ret root
    | .error e =>
      if e.code = .enoent then .ret inst.root
      else .throw (.mk .invalidResponse
        s!"LocalFsStorage: cannot canonicalize root ({showKey inst.root}): {e.message}")

/-- `#lockKey`. -/
def lockKey (cfg : FsConfig) (inst : Instance) (path : Path) : Io JsString :=
  (canonicalRoot inst).bind fun root => .ret (cfg.fold (pathText root path))

/-- `readExisting`: an error other than a missing file is thrown as it is. -/
def readExisting (path : Path) : Io (Option Bytes) :=
  (Io.ask (.readFile path)).bind fun r =>
    match r with
    | .ok body => .ret (some body)
    | .error e => if e.code = .enoent then .ret none else .throw (.other e.message)

/-! ## The format of the directory -/

/-- The position of `1` among the doubles. -/
theorem one_finite : -infinityBits < (0x3FF0000000000000 : Int) ∧
    (0x3FF0000000000000 : Int) < infinityBits := by decide

/-- `KEY_ENCODING`. -/
def keyEncoding : Doc := .num ⟨0x3FF0000000000000, one_finite⟩

/-- The text of the marker's path. -/
def markerText (inst : Instance) : String := showKey (pathText inst.root [formatMarker])

/-- `JSON.parse(text).key_encoding`; the outer `none` is a thrown error, the inner `undefined`. -/
def encodingOf (cfg : FsConfig) (body : Bytes) : Option (Option Doc) :=
  match JSON.parse cfg.numbers (cfg.decodeText body) with
  | none => none
  | some .null => none
  | some (.obj ms) => some (ms.lookup (js "key_encoding"))
  | some _ => some none

/-- `readFormatMarker`. -/
def readFormatMarker (cfg : FsConfig) (inst : Instance) : Io Bool :=
  (readExisting [formatMarker]).attempt.bind fun r =>
    match r with
    | .error e => .throw (.mk .invalidResponse
        s!"LocalFsStorage: cannot read {markerText inst}: {e.message}")
    | .ok none => .ret false
    | .ok (some body) =>
      match encodingOf cfg body with
      | none => .throw (.mk .invalidResponse s!"LocalFsStorage: {markerText inst} is not valid JSON")
      | some encoding =>
        if encoding ≠ some keyEncoding then
          let shown := encoding.elim "undefined" fun v => showKey (JSON.stringify cfg.numbers v)
          .throw (.mk .invalidConfig
            (s!"LocalFsStorage: {markerText inst} names key_encoding {shown}; this release " ++
              "reads only key_encoding 1"))
        else .ret true

/-- The bytes of the marker. -/
def markerBody : Bytes := Utf8.encode (js "\x7b\"key_encoding\":1\x7d\n")

/-- The `try` block of `stampFormatMarker`. -/
def linkMarker (tmp : Path) : Io (Except Errno Unit) :=
  (Io.writeFile tmp markerBody).bind fun r =>
    match r with
    | .error e => .ret (.error e)
    | .ok () => Io.ask (.link tmp [formatMarker])

/-- Its `catch` block: losing the race is fine if the winner wrote the same marker. -/
def acceptMarker (cfg : FsConfig) (inst : Instance) (e : Errno) : Io Unit :=
  let refuse : Io Unit := .throw (.mk .invalidResponse
    s!"LocalFsStorage: cannot write {markerText inst}: {e.message}")
  if e.code = .eexist then
    (readFormatMarker cfg inst).bind fun current => if current then .ret () else refuse
  else refuse

/-- `stampFormatMarker`. -/
def stampFormatMarker (cfg : FsConfig) (inst : Instance) : Io Unit :=
  (Io.ask .nonce).bind fun nonce =>
    let tmp := tempPathFor [formatMarker] nonce
    let stamped : Io Unit := (linkMarker tmp).bind fun r =>
      match r with
      | .ok () => .ret ()
      | .error e => acceptMarker cfg inst e
    -- the `finally` block
    stamped.attempt.bind fun outcome => (Io.ask (.rm tmp)).bind fun _ => Io.ofExcept outcome

/-- The lines of the refusal that name paths. -/
def shownPaths (legacy : List JsString) : List String :=
  ((legacy.take legacyPathsShown).map fun p => "  " ++ showKey p) ++
    if legacyPathsShown < legacy.length then
      [s!"  … and {legacy.length - legacyPathsShown} more"]
    else []

/-- The refusal of a directory an older release wrote. -/
def legacyRefusal (inst : Instance) (legacy : List JsString) : Err :=
  .mk .invalidConfig
    (s!"LocalFsStorage: {showKey inst.root} has no {showKey formatMarker} marker and holds paths " ++
      "that are not valid under the current key encoding:\n" ++
      "\n".intercalate (shownPaths legacy) ++ "\n" ++
      "If a path is a stray file that is not data, move it out of the directory. " ++
      "Otherwise the directory was written by an older release that stored keys " ++
      "verbatim: dump it with that release (`baerly admin dump`) and restore into a " ++
      "fresh directory (`baerly admin restore`). Keys that differed only by case or " ++
      "Unicode normalization may already have been merged by the filesystem.")

/-- The scan of an unmarked directory. -/
def adoptOrRefuse (cfg : FsConfig) (inst : Instance) : Io Unit :=
  (Io.ask .findLegacyPaths).bind fun r =>
    match r with
    | .error e => .throw (.other e.message)
    | .ok none => .ret ()
    | .ok (some legacy) =>
      if legacy = [] then stampFormatMarker cfg inst
      else (readFormatMarker cfg inst).bind fun marked =>
        if marked then stampFormatMarker cfg inst else .throw (legacyRefusal inst legacy)

/-- `#ensureFormat`. -/
def ensureFormat (cfg : FsConfig) (inst : Instance) (create : Bool) : Io Unit :=
  if inst.formatChecked then .ret ()
  else
    (canonicalRoot inst).bind fun _ =>
      (readFormatMarker cfg inst).bind fun marked =>
        if marked then .ret ()
        else if create then
          (Io.ask (.mkdir [])).bind fun r =>
            match r with
            | .error e => .throw (.other e.message)
            | .ok () => adoptOrRefuse cfg inst
        else adoptOrRefuse cfg inst

/-! ## The operations -/

/-- `StorageGetOptions`; `signal` says whether one was passed. -/
structure GetOptions where
  ifNoneMatch : Option Etag
  signal : Bool
  deriving DecidableEq

/-- `StoragePutOptions`; `ifNoneMatch` is `"*"` or absent. -/
structure PutOptions where
  ifMatch : Option Etag
  ifNoneMatch : Bool
  signal : Bool
  deriving DecidableEq

/-- `get`. -/
def get (cfg : FsConfig) (inst : Instance) (key : Key) (opts : GetOptions) :
    Io (Option (Bytes × Etag)) :=
  (Io.throwIfAborted opts.signal).bind fun _ =>
    (Io.ofExcept (pathFor key)).bind fun path =>
      (ensureFormat cfg inst false).bind fun _ =>
        (Io.ask (.readFile path)).bind fun r =>
          match r with
          | .error e =>
            if e.code = .enoent then .ret none
            else .throw (.mk .invalidResponse s!"LocalFsStorage.get({showKey key}): {e.message}")
          | .ok body =>
            if opts.ifNoneMatch = some (cfg.etagOf body) then .ret none
            else .ret (some (body, cfg.etagOf body))

/-- Write a temporary file, publish it, and remove what is left of it; what the last file system
    call before the clean-up said. -/
def publishVia (path : Path) (body : Bytes) (publish : Path → Io (Except Errno Unit)) :
    Io (Except Errno Unit) :=
  (Io.ask .nonce).bind fun nonce =>
    let tmp := tempPathFor path nonce
    (Io.writeFile tmp body).bind fun r =>
      let published : Io (Except Errno Unit) :=
        match r with
        | .error e => .ret (.error e)
        | .ok () => publish tmp
      published.bind fun outcome => (Io.ask (.rm tmp)).bind fun _ => .ret outcome

/-- The message of a failed precondition. -/
def preconditionFailed (key : Key) (why : String) : Err :=
  .mk .writeConflict s!"PUT {showKey key}: precondition failed ({why})"

/-- Any other error of a `put`. -/
def putFailed (key : Key) (e : Errno) : Err :=
  .mk .invalidResponse s!"LocalFsStorage.put({showKey key}): {e.message}"

/-- `ifNoneMatch: "*"`: exclusive create. -/
def putIfAbsent (cfg : FsConfig) (key : Key) (path : Path) (body : Bytes) : Io Etag :=
  (publishVia path body fun tmp => Io.ask (.link tmp path)).bind fun r =>
    match r with
    | .ok () => .ret (cfg.etagOf body)
    | .error e =>
      if e.code = .eexist then
        .throw (preconditionFailed key "ifNoneMatch=\"*\" but key exists")
      else .throw (putFailed key e)

/-- The read and the comparison of `ifMatch`. -/
def checkIfMatch (cfg : FsConfig) (key : Key) (path : Path) (ifMatch : Etag) : Io Unit :=
  (readExisting path).bind fun existing =>
    match existing with
    | none => .throw (preconditionFailed key s!"ifMatch={showKey ifMatch} but key does not exist")
    | some body =>
      if cfg.etagOf body ≠ ifMatch then
        .throw (preconditionFailed key
          s!"ifMatch={showKey ifMatch} but current ETag is {showKey (cfg.etagOf body)}")
      else .ret ()

/-- The unconditional part of a `put`. -/
def putOver (cfg : FsConfig) (key : Key) (path : Path) (body : Bytes) : Io Etag :=
  (publishVia path body fun tmp => Io.ask (.rename tmp path)).bind fun r =>
    match r with
    | .ok () => .ret (cfg.etagOf body)
    | .error e => .throw (putFailed key e)

/-- `#putSerialized`. -/
def putSerialized (cfg : FsConfig) (key : Key) (path : Path) (body : Bytes) (opts : PutOptions) :
    Io Etag :=
  (Io.throwIfAborted opts.signal).bind fun _ =>
    if opts.ifNoneMatch then putIfAbsent cfg key path body
    else
      match opts.ifMatch with
      | none => putOver cfg key path body
      | some ifMatch => (checkIfMatch cfg key path ifMatch).bind fun _ => putOver cfg key path body

/-- `put`. -/
def put (cfg : FsConfig) (inst : Instance) (key : Key) (body : Bytes) (opts : PutOptions) :
    Io Etag :=
  (Io.throwIfAborted opts.signal).bind fun _ =>
    (Io.ofExcept (pathFor key)).bind fun path =>
      (ensureFormat cfg inst true).bind fun _ =>
        (Io.ask (.mkdir path.dropLast)).bind fun r =>
          match r with
          | .error e => .throw (.other e.message)
          | .ok () =>
            (lockKey cfg inst path).bind fun lockKey =>
              withKeyLock lockKey (putSerialized cfg key path body opts)

/-- The section of a `delete`. -/
def removeSerialized (key : Key) (path : Path) (signal : Bool) : Io Unit :=
  (Io.throwIfAborted signal).bind fun _ =>
    (Io.ask (.rm path)).bind fun r =>
      match r with
      | .ok () => .ret ()
      | .error e =>
        if e.code = .enoent then .ret ()
        else .throw (.mk .invalidResponse s!"LocalFsStorage.delete({showKey key}): {e.message}")

/-- `delete`. -/
def delete (cfg : FsConfig) (inst : Instance) (key : Key) (signal : Bool) : Io Unit :=
  (Io.throwIfAborted signal).bind fun _ =>
    (Io.ofExcept (pathFor key)).bind fun path =>
      (ensureFormat cfg inst false).bind fun _ =>
        (lockKey cfg inst path).bind fun lockKey =>
          withKeyLock lockKey (removeSerialized key path signal)

/-! ## The directory -/

/-- The files of the directory. -/
abbrev Files := InsMap Path Bytes

/-- One request: who made it, and the directory before and after. -/
structure Moment where
  thread : Nat
  before : Files
  after : Files

/-- What is stored, the state of the mutex, and the ghost record. -/
structure Disk where
  files : Files
  /-- The directories; the root is `[]`. -/
  dirs : List Path
  locks : Locks
  nonces : List (JsString × Nat)
  trace : List Moment

namespace Disk

/-- What is stored before the first call of a process. -/
def opened (files : Files) (dirs : List Path) : Disk := ⟨files, dirs, Locks.empty, [], []⟩

/-- The path is a directory. -/
def isDir (w : Disk) (path : Path) : Bool := decide (path ∈ w.dirs)

/-- The root exists. -/
def made (w : Disk) : Bool := w.isDir []

/-- A file stands where a directory on the way to the path would be. -/
def blocked (w : Disk) (dir : Path) : Bool := dir.inits.any w.files.has

/-- A file can stand at the path: its directory is there, and it is none itself. -/
def canHold (w : Disk) (path : Path) : Bool := w.isDir path.dropLast && !w.isDir path

/-- Make a directory, and the directories it lies in. -/
def makeDirs (w : Disk) (dir : Path) : Disk := { w with dirs := w.dirs ++ dir.inits }

/-- Record a request of call `t`, made in `w`. -/
def record (w w' : Disk) (t : Nat) : Disk :=
  { w' with trace := w.trace ++ [⟨t, w.files, w'.files⟩] }

end Disk

/-- How the world resolves what a request leaves open. -/
inductive FsPick where
  /-- The call does what it can. -/
  | ok
  /-- It fails and has done nothing. -/
  | fail (e : Errno)
  /-- It fails half-way; `torn` is what it left of a body. -/
  | half (e : Errno) (torn : Bytes)
  /-- It fails half-way; `depth` is how many components of a path it has made. -/
  | upTo (e : Errno) (depth : Nat)
  | flag (b : Bool)
  | text (s : JsString)
  | legacy (paths : Option (List JsString))

/-- `ENOENT`. -/
def noSuchFile : Errno := ⟨.enoent, "ENOENT: no such file or directory"⟩

/-- `EEXIST`. -/
def fileExists : Errno := ⟨.eexist, "EEXIST: file already exists"⟩

/-- `EISDIR`. -/
def isDirectory : Errno := ⟨.other, "EISDIR: illegal operation on a directory"⟩

/-- `ENOTDIR`. -/
def notDirectory : Errno := ⟨.other, "ENOTDIR: not a directory"⟩

/-- Why there is no file at the path, or none can be made there. -/
def Disk.noFile (w : Disk) (path : Path) : Errno :=
  if w.isDir path then isDirectory
  else if w.blocked path.dropLast then notDirectory
  else noSuchFile

/-- Answer a file system call of call `t`.  `ENOENT` and `EEXIST` are answers about what is stored;
    any other error can happen at any time. -/
def fsExec (cfg : FsConfig) (t : Nat) : (op : FsOp) → FsPick → Disk → Option (FsResp op × Disk)
  | .aborted, .flag b, w => some (b, w)
  | .realpath, .ok, w => some (if w.made then .ok cfg.realRoot else .error noSuchFile, w)
  | .realpath, .fail e, w => if e.code = .enoent then none else some (.error e, w)
  | .mkdir dir, .ok, w =>
    if w.files.has dir then some (.error fileExists, w)
    else if w.blocked dir then some (.error notDirectory, w)
    else some (.ok (), w.makeDirs dir)
  | .mkdir _, .fail e, w => some (.error e, w)
  | .mkdir dir, .upTo e depth, w =>
    if w.blocked (dir.take depth) then none else some (.error e, w.makeDirs (dir.take depth))
  | .readFile path, .ok, w =>
    match w.files.get path with
    | some body => some (.ok body, w)
    | none => some (.error (w.noFile path), w)
  | .readFile _, .fail e, w => if e.code = .enoent then none else some (.error e, w)
  | .openFile path, .ok, w =>
    if w.canHold path then some (.ok (), { w with files := w.files.set path [] })
    else some (.error (w.noFile path), w)
  | .openFile _, .fail e, w => if e.code = .eexist then none else some (.error e, w)
  | .fillFile path body, .ok, w => some (.ok (), { w with files := w.files.set path body })
  | .fillFile _ _, .fail e, w => if e.code = .eexist then none else some (.error e, w)
  | .fillFile path _, .half e torn, w =>
    if e.code = .eexist then none
    else some (.error e, { w with files := w.files.set path torn })
  | .link existing path, .ok, w =>
    match w.files.get existing with
    | none => some (.error noSuchFile, w)
    | some body =>
      if w.files.has path || w.isDir path then some (.error fileExists, w)
      else if w.canHold path then some (.ok (), { w with files := w.files.set path body })
      else some (.error (w.noFile path), w)
  | .link _ _, .fail e, w => if e.code = .eexist then none else some (.error e, w)
  | .rename old path, .ok, w =>
    match w.files.get old with
    | none => some (.error noSuchFile, w)
    | some body =>
      if w.canHold path then some (.ok (), { w with files := (w.files.erase old).set path body })
      else some (.error (w.noFile path), w)
  | .rename _ _, .fail e, w => some (.error e, w)
  | .rm path, .ok, w =>
    if w.files.has path then some (.ok (), { w with files := w.files.erase path })
    else some (.error (w.noFile path), w)
  | .rm _, .fail e, w => if e.code = .enoent then none else some (.error e, w)
  | .findLegacyPaths, .legacy paths, w => some (.ok paths, w)
  | .findLegacyPaths, .fail e, w => some (.error e, w)
  | .nonce, .text s, w =>
    if s ∈ w.nonces.map Prod.fst then none
    else some (s, { w with nonces := w.nonces ++ [(s, t)] })
  | _, _, _ => none

/-- Answer any request of call `t`, and record it. -/
def exec (cfg : FsConfig) (t : Nat) : (op : LockOp ⊕ FsOp) → FsPick → Disk →
    Option (LockedResp FsResp op × Disk)
  | .inl op, _, w => (w.locks.exec t op).map fun a => (a.1, w.record { w with locks := a.2 } t)
  | .inr op, pick, w => (fsExec cfg t op pick w).map fun a => (a.1, w.record a.2 t)

/-! ## The adapter at work -/

/-- A call of one of the instances over the directory. -/
inductive FsCall where
  | get (inst : Instance) (key : Key) (opts : GetOptions)
  | put (inst : Instance) (key : Key) (body : Bytes) (opts : PutOptions)
  | delete (inst : Instance) (key : Key) (signal : Bool)
  deriving DecidableEq

/-- What each call resolves with. -/
abbrev FsRes : FsCall → Type
  | .get _ _ _ => Option (Bytes × Etag)
  | .put _ _ _ _ => Etag
  | .delete _ _ _ => Unit

/-- The program of a call. -/
def body (cfg : FsConfig) : (call : FsCall) → Io (FsRes call)
  | .get inst key opts => get cfg inst key opts
  | .put inst key bytes opts => put cfg inst key bytes opts
  | .delete inst key signal => delete cfg inst key signal

/-- The calls of one process over the directory, accepted under `accepts`. -/
def adapter (cfg : FsConfig) (accepts : FsCall → Disk → Bool) :
    Machine Disk (LockOp ⊕ FsOp) (LockedResp FsResp) Err FsCall FsRes where
  Pick := FsPick
  exec := exec cfg
  Env := Empty
  env := fun e _ => e.elim
  body := fun _ call => body cfg call
  accepts := accepts

/-- A `delete` through another spelling of the root waits until the root exists: before that,
    `#canonicalRoot` falls back to the spelling. -/
def rooted (cfg : FsConfig) : FsCall → Disk → Bool
  | .delete inst _ _, w => w.made || inst.root = cfg.realRoot
  | _, _ => true

end Baerly.LocalFs
