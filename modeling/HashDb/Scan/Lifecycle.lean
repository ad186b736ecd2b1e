import HashDb.Scan.SectorId

/-!
# The phases of `scan_sectorid`

bulk_extractor calls a scanner once per phase, and `scan_sectorid` keeps what it needs from
one phase to the next in static variables: the settings, with their defaults, and the pointer
`query` to the lookup service (src/src/clients/scan_sectorid/scan_sectorid.cpp). This file
models the whole switch over those statics (`scanSectorid`), a run of phases (`runPhases`), and
what the scanner is for (`settle`, `scanPages`): check the user's settings once, build one
service from them, then hash and look up each page with them.

* `PHASE_STARTUP` asserts the MD5 hasher, reads the settings over the defaults and writes the
  usage text (`onStartup`).
* `PHASE_INIT` checks the lookup type, then the sizes as `phaseInit` does, then builds the
  service on the path or the socket (`onInit`).
* `PHASE_SCAN` builds its request with the static `chunk_size`, looks it up through `query`
  and records the response (`onScan`).
* `PHASE_SHUTDOWN` deletes the service and leaves `query` pointing to it (`onShutdown`).

The code checks none of the order between phases: a `PHASE_SCAN` through a null or deleted
`query` faults, and with a zero `chunk_size` its request loop never ends. In the order
bulk_extractor uses (STARTUP, INIT, one SCAN per page, SHUTDOWN) none of this happens: the run
is the pipeline, with the one service deleted at the end (`lifecycle_refines_pipeline`). With a
service that answers only the requests it is sent, every feature of such a run names the digest
of a chunk of its page, at that chunk's offset (`lifecycle_features_name_chunks`).

`sector_hash_query_t`, `lookup_type_to_string`, `string_to_lookup_type` and `get_config` are not
in src/. The service is taken to answer a request by its content (`lookup`), and the names of
the lookup types are parameters (`LookupNames`). `assert(0)` is taken to abort.
-/

namespace HashDb
namespace Scan

/-- `sector_hash::lookup_type_t`. -/
inductive LookupType
  | noQueryType
  | queryUsePath
  | queryUseSocket
  deriving DecidableEq, Repr

/-- `lookup_type_to_string` and `string_to_lookup_type`; the second returns the type when it
reports the string valid. -/
structure LookupNames where
  lookupTypeToString : LookupType → String
  stringToLookupType : String → Option LookupType

/-- What `sector_hash_query_t` is built from: the lookup type and the path or socket. -/
structure Service where
  lookupType : LookupType
  lookupString : String
  deriving DecidableEq

/-- The static `query`: null, pointing to a live service, or left pointing to a service
`PHASE_SHUTDOWN` deleted. -/
inductive QueryPtr
  | null
  | live (svc : Service)
  | deleted (svc : Service)
  deriving DecidableEq

/-- The static variables of scan_sectorid.cpp. -/
structure Statics where
  chunkSize : Nat
  sectorSize : Nat
  lookupType : LookupType
  lookupTypeString : String
  clientHashdbPath : String
  clientSocketEndpoint : String
  query : QueryPtr

/-- The statics as the program starts. -/
def Statics.initial (names : LookupNames) : Statics where
  chunkSize := 4096
  sectorSize := 512
  lookupType := .noQueryType
  lookupTypeString := names.lookupTypeToString .queryUsePath
  clientHashdbPath := "a valid hashdb directory path is required"
  clientSocketEndpoint := "tcp://localhost:14500"
  query := .null

/-- The settings the user gives, which `get_config` reads in `PHASE_STARTUP`; one left out
keeps the variable's value. -/
structure UserConfig where
  lookupType : Option String
  path : Option String
  socket : Option String
  chunkSize : Option Nat
  sectorSize : Option Nat

/-- What `PHASE_SCAN` reads of `sp.sbuf`: the bytes, the page size and the offset. -/
structure Page where
  buf : Bytes
  pagesize : Nat
  pos0 : Nat

/-- The phases of `sp.phase`; `startup` carries the configured hasher's name and the user's
settings. -/
inductive Phase
  | startup (hasherName : String) (user : UserConfig)
  | init
  | scan (page : Page)
  | shutdown
  | other

/-- A call through `query` that goes wrong. -/
inductive QueryFault
  /-- `query->lookup_hashes_md5` with `query` null. -/
  | nullDeref
  /-- `query->lookup_hashes_md5` on a deleted service. -/
  | useAfterDelete
  /-- `delete query` on a deleted service. -/
  | doubleDelete
  deriving DecidableEq

/-- How a call, or a run of calls, ends: returning with the statics it leaves, `exit(1)`,
`assert(0)`, a fault through `query`, or a request loop that never ends. -/
inductive Ending (σ : Type)
  | returned (s : σ)
  | exited
  | aborted
  | fault (f : QueryFault)
  | hangs

/-- What a call, or a run of calls, wrote to `scanner_info::helpstream` and recorded with
`md5_recorder`, and how it ended. -/
structure Outcome (σ : Type) where
  help : String
  features : List Feature
  ending : Ending σ

/-- An outcome after some help text and features written before it. -/
def Outcome.after {σ : Type} (help : String) (features : List Feature) (o : Outcome σ) :
    Outcome σ :=
  ⟨help ++ o.help, features ++ o.features, o.ending⟩

/-- The outcome with its final state mapped. -/
def Outcome.map {σ τ : Type} (f : σ → τ) (o : Outcome σ) : Outcome τ :=
  ⟨o.help, o.features, match o.ending with
    | .returned s => .returned (f s)
    | .exited => .exited
    | .aborted => .aborted
    | .fault e => .fault e
    | .hangs => .hangs⟩

/-- A call that returns with `s` having written `help`. -/
def Outcome.ret {σ : Type} (help : String) (s : σ) : Outcome σ := ⟨help, [], .returned s⟩

/-- A call that stops with `e` having written `help`. -/
def Outcome.stop {σ : Type} (help : String) (e : Ending σ) : Outcome σ := ⟨help, [], e⟩

@[simp] theorem Outcome.after_empty {σ : Type} (o : Outcome σ) : o.after "" [] = o := by
  simp [Outcome.after]

@[simp] theorem Outcome.map_after {σ τ : Type} (f : σ → τ) (h : String) (fs : List Feature)
    (o : Outcome σ) : (o.after h fs).map f = (o.map f).after h fs := rfl

section Phases

variable (names : LookupNames) {D : Type} (md5 : Bytes → D) (hexdigest : D → String)
  (lookup : Service → List (HashRequest D) → Bool × HashesResponse D)

/-- The usage text `PHASE_STARTUP` writes, with the lookup type's default as `lookup_type`
then holds and the socket as the user set it. -/
def startupHelp (lookupType : LookupType) (socket : String) : String :=
  "      <lookup_type> used to perform the lookup, where <lookup_type>\n" ++
  "      is one of use_path | use_socket (default " ++ names.lookupTypeToString lookupType ++
  ")\n" ++
  "      use_path   - Lookups are performed from a hashdb in the filesystem\n" ++
  "                   at the specified <path>.\n" ++
  "      use_socket - Lookups are performed from a server service at the\n" ++
  "                   specified <socket>.\n" ++
  "      Specifies the <path> to the hash database to be used for performing\n" ++
  "      the lookup service.  This option is only used when the lookup type\n" ++
  "      is set to \"use_path\".\n" ++
  "      Specifies the <client socket endpoint> to use to connect with the\n" ++
  "      sector_hash server.  Valid transports supported by the zmq\n" ++
  "      messaging kernel are tcp, ipc, and inproc.  Currently, only tcp\n" ++
  "      is tested (default '" ++ socket ++ "').\n" ++
  "      This option is only valid when the lookup type is set to\n" ++
  "      \"lookup_socket\".\n" ++
  "      Hashes are generated on each sector_size boundary.\n"

/-- The statics after `get_config` has read the user's settings. -/
def Statics.configure (s : Statics) (user : UserConfig) : Statics :=
  { s with
    lookupTypeString := user.lookupType.getD s.lookupTypeString
    clientHashdbPath := user.path.getD s.clientHashdbPath
    clientSocketEndpoint := user.socket.getD s.clientSocketEndpoint
    chunkSize := user.chunkSize.getD s.chunkSize
    sectorSize := user.sectorSize.getD s.sectorSize }

/-- `PHASE_STARTUP`: `assert(0)` unless the hasher is MD5, then the settings and the usage
text. -/
def onStartup (hasherName : String) (user : UserConfig) (s : Statics) : Outcome Statics :=
  if hasherName ≠ "MD5" then .stop "" .aborted
  else .ret (startupHelp names s.lookupType (user.socket.getD s.clientSocketEndpoint))
    (s.configure user)

/-- The message `PHASE_INIT` exits with on a lookup type `string_to_lookup_type` rejects. -/
def lookupTypeInvalid (lookupTypeString : String) : String :=
  "Error.  Value '" ++ lookupTypeString ++ "' for parameter 'lookup_type' is invalid.\n" ++
    "Cannot continue.\n"

/-- `PHASE_INIT`: the lookup type, the sizes (`phaseInit`), then `new sector_hash_query_t` on
the path or the socket; `assert(0)` on a type that is neither. -/
def onInit (s : Statics) : Outcome Statics :=
  match names.stringToLookupType s.lookupTypeString with
  | none => .stop (lookupTypeInvalid s.lookupTypeString) .exited
  | some t =>
    match phaseInit s.chunkSize s.sectorSize with
    | .error msg => .stop msg .exited
    | .ok _ =>
      match t with
      | .queryUsePath => .ret "" { s with lookupType := t, query := .live ⟨t, s.clientHashdbPath⟩ }
      | .queryUseSocket =>
        .ret "" { s with lookupType := t, query := .live ⟨t, s.clientSocketEndpoint⟩ }
      | .noQueryType => .stop "" .aborted

/-- `PHASE_SCAN`: the request loop on the static `chunk_size` (with a zero size it never
ends), the lookup through `query`, and the response as `scanResponse` records it. -/
def onScan (page : Page) (s : Statics) : Outcome Statics :=
  if s.chunkSize = 0 then .stop "" .hangs
  else
    match s.query with
    | .null => .stop "" (.fault .nullDeref)
    | .deleted _ => .stop "" (.fault .useAfterDelete)
    | .live svc =>
      let answer := lookup svc (scanFrom md5 page.buf page.pagesize s.chunkSize (page.pagesize + 1) 0)
      match scanResponse hexdigest s.chunkSize page.pos0 answer.1 answer.2 with
      | .returned help features => ⟨help, features, .returned s⟩
      | .exited help => .stop help .exited

/-- `PHASE_SHUTDOWN`: `delete query`, which leaves `query` as it was. -/
def onShutdown (s : Statics) : Outcome Statics :=
  match s.query with
  | .null => .ret "" s
  | .live svc => .ret "" { s with query := .deleted svc }
  | .deleted _ => .stop "" (.fault .doubleDelete)

/-- `scan_sectorid(sp, rcb)`: the switch over `sp.phase`. -/
def scanSectorid : Phase → Statics → Outcome Statics
  | .startup hasherName user => onStartup names hasherName user
  | .init => onInit names
  | .scan page => onScan md5 hexdigest lookup page
  | .shutdown => onShutdown
  | .other => .ret ""

/-- A run of phases: each call on the statics the last one left, until one does not return. -/
def runPhases : List Phase → Statics → Outcome Statics
  | [], s => .ret "" s
  | p :: ps, s =>
    let o := scanSectorid names md5 hexdigest lookup p s
    match o.ending with
    | .returned s' => (runPhases ps s').after o.help o.features
    | _ => o

/-- The order bulk_extractor calls a scanner in: STARTUP, INIT, a SCAN per page, SHUTDOWN. -/
def lifecycle (hasherName : String) (user : UserConfig) (pages : List Page) : List Phase :=
  .startup hasherName user :: .init :: (pages.map .scan ++ [.shutdown])

/-! ## What the scanner is for -/

/-- The service and sizes the user's settings should give, or how `PHASE_INIT` refuses them:
the lookup type checked, the sizes checked by `phaseInit`, and the service built on the path or
the socket the type names. -/
def settle (user : UserConfig) : Except (Outcome Unit) (SectorConfig × Service) :=
  let s := (Statics.initial names).configure user
  match names.stringToLookupType s.lookupTypeString with
  | none => .error (.stop (lookupTypeInvalid s.lookupTypeString) .exited)
  | some t =>
    match phaseInit s.chunkSize s.sectorSize with
    | .error msg => .error (.stop msg .exited)
    | .ok cfg =>
      match t with
      | .queryUsePath => .ok (cfg, ⟨t, s.clientHashdbPath⟩)
      | .queryUseSocket => .ok (cfg, ⟨t, s.clientSocketEndpoint⟩)
      | .noQueryType => .error (.stop "" .aborted)

/-- One page hashed with the checked sizes and looked up on the service. -/
def scanPage (cfg : SectorConfig) (svc : Service) (page : Page) : ScanOutcome :=
  let answer := lookup svc (phaseScan md5 cfg page.buf page.pagesize)
  scanResponse hexdigest cfg.chunkSize page.pos0 answer.1 answer.2

/-- The pages scanned in turn, until one exits. -/
def scanPages (cfg : SectorConfig) (svc : Service) : List Page → Outcome Unit
  | [] => .ret "" ()
  | page :: pages =>
    match scanPage md5 hexdigest lookup cfg svc page with
    | .returned help features => (scanPages cfg svc pages).after help features
    | .exited help => .stop help .exited

/-- The pipeline: the settings settled once, then every page scanned with them. -/
def pipeline (user : UserConfig) (pages : List Page) : Outcome Unit :=
  match settle names user with
  | .error o => o
  | .ok (cfg, svc) => scanPages md5 hexdigest lookup cfg svc pages

/-! ## The statics carry the pipeline -/

theorem runPhases_cons_ret {p : Phase} {s s' : Statics} {help : String}
    (h : scanSectorid names md5 hexdigest lookup p s = .ret help s') (ps : List Phase) :
    runPhases names md5 hexdigest lookup (p :: ps) s =
      (runPhases names md5 hexdigest lookup ps s').after help [] := by
  simp [runPhases, h, Outcome.ret]

theorem runPhases_cons_of_not_returned {p : Phase} {s : Statics}
    (h : ∀ s', (scanSectorid names md5 hexdigest lookup p s).ending ≠ .returned s')
    (ps : List Phase) :
    runPhases names md5 hexdigest lookup (p :: ps) s = scanSectorid names md5 hexdigest lookup p s := by
  dsimp only [runPhases]
  split
  · exact absurd ‹_› (h _)
  · rfl

/-- `phaseInit` returns the sizes it was given. -/
theorem phaseInit_ok {chunkSize sectorSize : Nat} {cfg : SectorConfig}
    (h : phaseInit chunkSize sectorSize = .ok cfg) :
    cfg.chunkSize = chunkSize ∧ cfg.sectorSize = sectorSize := by
  unfold phaseInit at h
  split_ifs at h
  cases h
  exact ⟨rfl, rfl⟩

/-- `settle` refuses with an exit or an abort, recording nothing. -/
theorem settle_error_stops {user : UserConfig} {o : Outcome Unit}
    (h : settle names user = .error o) : (∃ help, o = .stop help .exited) ∨ o = .stop "" .aborted := by
  dsimp only [settle] at h
  split at h
  · cases h; exact .inl ⟨_, rfl⟩
  · split at h
    · cases h; exact .inl ⟨_, rfl⟩
    · split at h <;> cases h
      exact .inr rfl

/-- The sizes `settle` settles are the ones the user's settings give. -/
theorem settle_ok_chunkSize {user : UserConfig} {cfg : SectorConfig} {svc : Service}
    (h : settle names user = .ok (cfg, svc)) :
    cfg.chunkSize = ((Statics.initial names).configure user).chunkSize := by
  dsimp only [settle] at h
  split at h
  · cases h
  · split at h
    · cases h
    · next hcfg => split at h <;> cases h <;> exact (phaseInit_ok hcfg).1

/-- After STARTUP, INIT on the user's settings refuses them as `settle` does, or returns with
the service `settle` builds live. -/
theorem onInit_configure (user : UserConfig) :
    onInit names ((Statics.initial names).configure user) =
      match settle names user with
      | .error o => o.map fun _ => (Statics.initial names).configure user
      | .ok (_, svc) => .ret "" { (Statics.initial names).configure user with
          lookupType := svc.lookupType, query := .live svc } := by
  dsimp only [onInit, settle]
  cases names.stringToLookupType ((Statics.initial names).configure user).lookupTypeString with
  | none => rfl
  | some t =>
    cases phaseInit _ _ with
    | error msg => rfl
    | ok cfg => cases t <;> rfl

/-- STARTUP with the MD5 hasher writes the usage text and reads the user's settings. -/
theorem runPhases_startup (user : UserConfig) (ps : List Phase) :
    runPhases names md5 hexdigest lookup (.startup "MD5" user :: ps) (Statics.initial names) =
      (runPhases names md5 hexdigest lookup ps ((Statics.initial names).configure user)).after
        (startupHelp names .noQueryType (user.socket.getD "tcp://localhost:14500")) [] :=
  runPhases_cons_ret names md5 hexdigest lookup (by simp [scanSectorid, onStartup, Statics.initial]) ps

/-- When `settle` refuses the user's settings, INIT ends the run as `settle` does. -/
theorem runPhases_init_of_error {user : UserConfig} {o : Outcome Unit}
    (hs : settle names user = .error o) (ps : List Phase) :
    runPhases names md5 hexdigest lookup (.init :: ps) ((Statics.initial names).configure user) =
      o.map fun _ => (Statics.initial names).configure user := by
  have hinit := onInit_configure names user
  rw [hs] at hinit
  refine (runPhases_cons_of_not_returned names md5 hexdigest lookup (fun s' he => ?_) ps).trans hinit
  rcases settle_error_stops names hs with ⟨help, rfl⟩ | rfl <;>
    simp [scanSectorid, hinit, Outcome.map, Outcome.stop] at he

/-- When `settle` accepts the user's settings, INIT returns with its service live. -/
theorem runPhases_init_of_ok {user : UserConfig} {cfg : SectorConfig} {svc : Service}
    (hs : settle names user = .ok (cfg, svc)) (ps : List Phase) :
    runPhases names md5 hexdigest lookup (.init :: ps) ((Statics.initial names).configure user) =
      runPhases names md5 hexdigest lookup ps { (Statics.initial names).configure user with
        lookupType := svc.lookupType, query := .live svc } := by
  have hinit := onInit_configure names user
  rw [hs] at hinit
  dsimp only at hinit
  rw [runPhases_cons_ret names md5 hexdigest lookup (p := .init) hinit, Outcome.after_empty]

/-- A SCAN on statics with the checked chunk size and a live service is the pipeline's
scan of the page, and leaves the statics as they were. -/
theorem onScan_live {cfg : SectorConfig} {svc : Service} {s : Statics}
    (hsize : s.chunkSize = cfg.chunkSize) (hq : s.query = .live svc) (page : Page) :
    onScan md5 hexdigest lookup page s =
      match scanPage md5 hexdigest lookup cfg svc page with
      | .returned help features => ⟨help, features, .returned s⟩
      | .exited help => .stop help .exited := by
  simp only [onScan, hq, scanPage, phaseScan, hsize,
    if_neg (Nat.pos_iff_ne_zero.1 cfg.chunkSize_pos)]

/-- The SCANs and the SHUTDOWN of the lifecycle, on statics with the checked chunk size and a
live service, run the pipeline's scans and end with the service deleted. -/
theorem runPhases_scans {cfg : SectorConfig} {svc : Service} {s : Statics}
    (hsize : s.chunkSize = cfg.chunkSize) (hq : s.query = .live svc) :
    ∀ pages : List Page,
      runPhases names md5 hexdigest lookup (pages.map .scan ++ [.shutdown]) s =
        (scanPages md5 hexdigest lookup cfg svc pages).map fun _ => { s with query := .deleted svc }
  | [] => by
    simp [runPhases, scanSectorid, onShutdown, hq, scanPages, Outcome.ret, Outcome.map]
  | page :: pages => by
    have hscan := onScan_live md5 hexdigest lookup hsize hq page
    simp only [List.map_cons, List.cons_append, scanPages]
    cases hp : scanPage md5 hexdigest lookup cfg svc page with
    | returned help features =>
      rw [hp] at hscan
      simp [runPhases, scanSectorid, hscan, runPhases_scans hsize hq pages]
    | exited help =>
      rw [hp] at hscan
      simp [runPhases, scanSectorid, hscan, Outcome.stop, Outcome.map]

/-- In the order bulk_extractor calls it, with the MD5 hasher, the scanner is the pipeline:
after the usage text, it refuses the settings as `settle` does, or it scans every page with the
sizes `PHASE_INIT` checked and the one service it built, until a page exits; if none does, it
returns with that service deleted. No call goes through a null or deleted `query` and no request
loop runs without end. -/
theorem lifecycle_refines_pipeline (user : UserConfig) (pages : List Page) :
    runPhases names md5 hexdigest lookup (lifecycle "MD5" user pages) (Statics.initial names) =
      ((pipeline names md5 hexdigest lookup user pages).map fun _ =>
        match settle names user with
        | .error _ => (Statics.initial names).configure user
        | .ok (_, svc) => { (Statics.initial names).configure user with
            lookupType := svc.lookupType, query := .deleted svc }).after
        (startupHelp names .noQueryType (user.socket.getD "tcp://localhost:14500")) [] := by
  rw [lifecycle, runPhases_startup]
  refine congrArg (Outcome.after _ []) ?_
  unfold pipeline
  cases hs : settle names user with
  | error o => exact runPhases_init_of_error names md5 hexdigest lookup hs _
  | ok r =>
    obtain ⟨cfg, svc⟩ := r
    rw [runPhases_init_of_ok names md5 hexdigest lookup hs]
    exact runPhases_scans names md5 hexdigest lookup (by exact (settle_ok_chunkSize names hs).symm) rfl
      pages

/-! ## What the recorded features name -/

/-- A page's features are one per response of its lookup, at the page's offset plus the
response's id, naming the response's digest. -/
theorem mem_scanPage {cfg : SectorConfig} {svc : Service} {page : Page} {help : String}
    {fs : List Feature} (h : scanPage md5 hexdigest lookup cfg svc page = .returned help fs)
    {f : Feature} (hf : f ∈ fs) :
    ∃ r ∈ (lookup svc (phaseScan md5 cfg page.buf page.pagesize)).2.hashResponses,
      f.offset = page.pos0 + r.id ∧ f.feature = hexdigest r.digest := by
  dsimp only [scanPage, scanResponse] at h
  split_ifs at h <;> cases h
  · cases hf
  · obtain ⟨r, hr, rfl⟩ := List.mem_map.1 hf
    exact ⟨r, hr, rfl, rfl⟩

/-- The features of the pages scanned in turn are features of the pages. -/
theorem mem_scanPages {cfg : SectorConfig} {svc : Service} :
    ∀ {pages : List Page} {f : Feature}, f ∈ (scanPages md5 hexdigest lookup cfg svc pages).features →
      ∃ page ∈ pages, ∃ help fs, scanPage md5 hexdigest lookup cfg svc page = .returned help fs ∧
        f ∈ fs
  | [], f, hf => by simp [scanPages, Outcome.ret] at hf
  | page :: pages, f, hf => by
    simp only [scanPages] at hf
    split at hf
    · next help fs hp =>
      rcases List.mem_append.1 hf with hf | hf
      · exact ⟨page, List.mem_cons_self _ _, help, fs, hp, hf⟩
      · obtain ⟨p, hp', rest⟩ := mem_scanPages hf
        exact ⟨p, List.mem_cons_of_mem _ hp', rest⟩
    · simp [Outcome.stop] at hf

/-- Over a whole run in bulk_extractor's order, with a lookup service that answers only requests
it was sent, with their digests, every feature the scanner records lies at a page's offset plus
a chunk boundary of that page with room for a chunk, and names the digest of that chunk, the
chunk size being the one `PHASE_INIT` accepted. -/
theorem lifecycle_features_name_chunks (user : UserConfig) (pages : List Page)
    (hanswers : ∀ cfg svc, settle names user = .ok (cfg, svc) → ∀ page ∈ pages,
      ∀ r ∈ (lookup svc (phaseScan md5 cfg page.buf page.pagesize)).2.hashResponses,
        ∃ q ∈ phaseScan md5 cfg page.buf page.pagesize, q.id = r.id ∧ q.digest = r.digest) :
    ∀ f ∈ (runPhases names md5 hexdigest lookup (lifecycle "MD5" user pages)
        (Statics.initial names)).features,
      ∃ cfg svc, settle names user = .ok (cfg, svc) ∧ ∃ page ∈ pages, ∃ i,
        f.offset = page.pos0 + i ∧ i % cfg.chunkSize = 0 ∧ i + cfg.chunkSize ≤ page.pagesize ∧
        f.feature = hexdigest (md5 ((page.buf.drop i).take cfg.chunkSize)) := by
  intro f hf
  rw [lifecycle, runPhases_startup] at hf
  simp only [Outcome.after, List.nil_append] at hf
  cases hs : settle names user with
  | error o =>
    rw [runPhases_init_of_error names md5 hexdigest lookup hs] at hf
    rcases settle_error_stops names hs with ⟨help, rfl⟩ | rfl <;>
      simp [Outcome.map, Outcome.stop] at hf
  | ok r =>
    obtain ⟨cfg, svc⟩ := r
    have hsize : ({ (Statics.initial names).configure user with
        lookupType := svc.lookupType, query := .live svc } : Statics).chunkSize = cfg.chunkSize :=
      (settle_ok_chunkSize names hs).symm
    rw [runPhases_init_of_ok names md5 hexdigest lookup hs,
      runPhases_scans names md5 hexdigest lookup hsize rfl] at hf
    -- the feature is one of a page's, answering one of the page's requests
    obtain ⟨page, hpage, help, fs, hp, hf⟩ := mem_scanPages md5 hexdigest lookup hf
    obtain ⟨r, hr, hoff, hfeat⟩ := mem_scanPage md5 hexdigest lookup hp hf
    obtain ⟨q, hq, hid, hdig⟩ := hanswers cfg svc hs page hpage r hr
    obtain ⟨h0, hroom⟩ := (mem_ids_phaseScan cfg page.buf page.pagesize r.id).1
      (hid ▸ List.mem_map_of_mem HashRequest.id hq)
    exact ⟨cfg, svc, rfl, page, hpage, r.id, hoff, h0, hroom,
      by rw [hfeat, ← hdig, digest_scanFrom _ _ q hq, hid]⟩

/-- A service that answers every request with its own digest, and a page of four bytes scanned
with chunks of two. -/
theorem lifecycle_features_name_chunks_echo :
    let names : LookupNames :=
      ⟨fun _ => "use_path", fun str => if str = "use_path" then some .queryUsePath else none⟩
    let lookup : Service → List (HashRequest Bytes) → Bool × HashesResponse Bytes :=
      fun _ request => (true, ⟨2, request.map fun q => ⟨q.id, q.digest, 1⟩⟩)
    let user : UserConfig := ⟨none, none, none, some 2, some 1⟩
    let pages : List Page := [⟨[1, 2, 3, 4], 4, 0⟩]
    (∀ cfg svc, settle names user = .ok (cfg, svc) → ∀ page ∈ pages,
      ∀ r ∈ (lookup svc (phaseScan id cfg page.buf page.pagesize)).2.hashResponses,
        ∃ q ∈ phaseScan id cfg page.buf page.pagesize, q.id = r.id ∧ q.digest = r.digest) ∧
    ∀ f ∈ (runPhases names id toString lookup (lifecycle "MD5" user pages)
        (Statics.initial names)).features,
      ∃ cfg svc, settle names user = .ok (cfg, svc) ∧ ∃ page ∈ pages, ∃ i,
        f.offset = page.pos0 + i ∧ i % cfg.chunkSize = 0 ∧ i + cfg.chunkSize ≤ page.pagesize ∧
        f.feature = toString (id ((page.buf.drop i).take cfg.chunkSize)) := by
  intro names lookup user pages
  have hanswers : ∀ cfg svc, settle names user = .ok (cfg, svc) → ∀ page ∈ pages,
      ∀ r ∈ (lookup svc (phaseScan id cfg page.buf page.pagesize)).2.hashResponses,
        ∃ q ∈ phaseScan id cfg page.buf page.pagesize, q.id = r.id ∧ q.digest = r.digest := by
    intro cfg svc _ page _ r hr
    obtain ⟨q, hq, rfl⟩ := List.mem_map.1 hr
    exact ⟨q, hq, rfl, rfl⟩
  exact ⟨hanswers, lifecycle_features_name_chunks names id toString lookup user pages hanswers⟩

end Phases

end Scan
end HashDb
