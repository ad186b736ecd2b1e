import HashDb.Basic
import Mathlib.Data.List.Sort

/-!
# The request loop of `scan_sectorid`

The bulk_extractor scanner `scan_sectorid` (src/src/clients/scan_sectorid/scan_sectorid.cpp)
hashes blocks of each page it is given and looks the hashes up in a hash database.
`PHASE_INIT` accepts a positive `chunk_size` and `sector_size` with
`chunk_size % sector_size == 0`; `PHASE_SCAN` then builds one request per block, `i` stepping
from 0 by `chunk_size` while `i + chunk_size <= pagesize`, each the MD5 of bytes
`[i, i + chunk_size)` with `i` as its id.

The scanner's help text says "Hashes are generated on each sector_size boundary". The loop
steps by `chunk_size`: the ids are the chunk boundaries (`ids_phaseScan`), and they are the
sector boundaries only when the two sizes agree or the page holds no second sector boundary a
chunk fits after (`phase_scan_steps_by_chunk`).

After the lookup `PHASE_SCAN` records one `md5` feature per response, at the page's offset plus
the response's id (`scanResponse`). The lookup service, `sector_hash_query_t`, is not in src/:
when it answers only requests it was sent, with their digests, every feature lies at a chunk
boundary of the page with room for a chunk and names the digest of that chunk
(`phase_scan_records_chunks`).
-/

namespace HashDb
namespace Scan

/-- The sizes `PHASE_INIT` accepts, with its checks as fields. -/
structure SectorConfig where
  chunkSize : Nat
  sectorSize : Nat
  chunkSize_pos : 0 < chunkSize
  sectorSize_pos : 0 < sectorSize
  aligned : chunkSize % sectorSize = 0

/-- `PHASE_INIT`'s checks of `chunk_size` and `sector_size`: the sizes, or the message it writes
to the help stream before `exit(1)`. -/
def phaseInit (chunkSize sectorSize : Nat) : Except String SectorConfig :=
  if h0 : chunkSize = 0 then
    .error "Error.  Value for parameter 'chunk_size' is invalid.\nCannot continue.\n"
  else if h1 : sectorSize = 0 then
    .error "Error.  Value for parameter 'sector_size' is invalid.\nCannot continue.\n"
  else if h2 : chunkSize % sectorSize = 0 then
    .ok ⟨chunkSize, sectorSize, Nat.pos_of_ne_zero h0, Nat.pos_of_ne_zero h1, h2⟩
  else
    .error ("Error: invalid chunk size=" ++ toString chunkSize ++ " or sector size=" ++
      toString sectorSize ++ ".\nSectors must align on chunk boundaries.\n" ++
      "Specifically, sectorid_chunk_size % sectorid_sector_size must be zero.\n" ++
      "Cannot continue.\n")

/-- A request of the lookup, `hash_request_md5_t(i, digest)`: the block's offset as its id, and
the digest of the block. -/
structure HashRequest (D : Type) where
  id : Nat
  digest : D
  deriving DecidableEq

section Scan

variable {D : Type} (md5 : Bytes → D)

/-- The request loop of `PHASE_SCAN` from offset `i`,
`for (; i + chunk_size <= sbuf.pagesize; i += chunk_size)`, with `fuel` bounding its turns;
`md5` is `md5_generator::hash_buf`. -/
def scanFrom (buf : Bytes) (pagesize chunkSize : Nat) : Nat → Nat → List (HashRequest D)
  | 0, _ => []
  | fuel + 1, i =>
    if i + chunkSize ≤ pagesize then
      ⟨i, md5 ((buf.drop i).take chunkSize)⟩ :: scanFrom buf pagesize chunkSize fuel (i + chunkSize)
    else []

/-- The request `PHASE_SCAN` builds for a page of `pagesize` bytes held at the start of `buf`:
the loop from offset 0, given a turn for every byte, more than it takes with a positive
`chunk_size`. -/
def phaseScan (cfg : SectorConfig) (buf : Bytes) (pagesize : Nat) : List (HashRequest D) :=
  scanFrom md5 buf pagesize cfg.chunkSize (pagesize + 1) 0

variable {md5}

/-- From offset `i`, with enough turns, the loop asks for the chunk boundaries after `i` that
leave room for a chunk. -/
theorem ids_scanFrom {buf : Bytes} {pagesize chunkSize : Nat} (hc : 0 < chunkSize) :
    ∀ fuel i, (pagesize - i) / chunkSize < fuel →
      (scanFrom md5 buf pagesize chunkSize fuel i).map HashRequest.id =
        (List.range ((pagesize - i) / chunkSize)).map (i + · * chunkSize)
  | 0, _, h => absurd h (Nat.not_lt_zero _)
  | fuel + 1, i, h => by
    by_cases hi : i + chunkSize ≤ pagesize
    · have hn : (pagesize - i) / chunkSize = (pagesize - (i + chunkSize)) / chunkSize + 1 := by
        rw [show pagesize - i = pagesize - (i + chunkSize) + chunkSize by omega,
          Nat.add_div_right _ hc]
      rw [scanFrom, if_pos hi, List.map_cons, ids_scanFrom hc fuel (i + chunkSize) (by omega),
        hn, List.range_succ_eq_map, List.map_cons, List.map_map]
      refine congrArg₂ _ (by simp) (List.map_congr_left fun j _ => ?_)
      simp only [Function.comp, Nat.succ_mul]
      omega
    · rw [scanFrom, if_neg hi, Nat.div_eq_of_lt (by omega)]
      rfl

/-- Each request hashes the chunk at its id. -/
theorem digest_scanFrom {buf : Bytes} {pagesize chunkSize : Nat} :
    ∀ fuel i, ∀ r ∈ scanFrom md5 buf pagesize chunkSize fuel i,
      r.digest = md5 ((buf.drop r.id).take chunkSize)
  | 0, _, _, hr => by cases hr
  | fuel + 1, i, r, hr => by
    rw [scanFrom] at hr
    split_ifs at hr
    · rcases List.mem_cons.1 hr with rfl | hr
      · rfl
      · exact digest_scanFrom fuel _ r hr
    · cases hr

theorem ids_phaseScan (cfg : SectorConfig) (buf : Bytes) (pagesize : Nat) :
    (phaseScan md5 cfg buf pagesize).map HashRequest.id =
      (List.range (pagesize / cfg.chunkSize)).map (· * cfg.chunkSize) := by
  rw [phaseScan, ids_scanFrom cfg.chunkSize_pos _ 0
    (Nat.lt_succ_of_le ((Nat.div_le_self _ _).trans (Nat.sub_le _ _)))]
  simp

/-- The ids are the chunk boundaries that leave room for a chunk. -/
theorem mem_ids_phaseScan (cfg : SectorConfig) (buf : Bytes) (pagesize i : Nat) :
    i ∈ (phaseScan md5 cfg buf pagesize).map HashRequest.id ↔
      i % cfg.chunkSize = 0 ∧ i + cfg.chunkSize ≤ pagesize := by
  have hc := cfg.chunkSize_pos
  rw [ids_phaseScan, List.mem_map]
  constructor
  · rintro ⟨j, hj, rfl⟩
    rw [List.mem_range, Nat.lt_iff_add_one_le, Nat.le_div_iff_mul_le hc, Nat.succ_mul] at hj
    exact ⟨Nat.mul_mod_left _ _, hj⟩
  · rintro ⟨h0, hi⟩
    have hi' := Nat.div_mul_cancel (Nat.dvd_of_mod_eq_zero h0)
    refine ⟨i / cfg.chunkSize, ?_, hi'⟩
    rw [List.mem_range, Nat.lt_iff_add_one_le, Nat.le_div_iff_mul_le hc, Nat.succ_mul, hi']
    exact hi

theorem sorted_ids_phaseScan (cfg : SectorConfig) (buf : Bytes) (pagesize : Nat) :
    ((phaseScan md5 cfg buf pagesize).map HashRequest.id).Sorted (· < ·) := by
  rw [ids_phaseScan]
  exact (List.pairwise_lt_range _).map _ fun _ _ h =>
    Nat.mul_lt_mul_of_pos_right h cfg.chunkSize_pos

variable (md5)

/-- `PHASE_SCAN` asks for the chunk boundaries that leave room for a chunk, in increasing order,
each with the digest of the chunk at its id. Those are the sector boundaries with room for a
chunk exactly when the chunk is one sector, or when the page has no room for a chunk after
the first sector boundary past 0. -/
theorem phase_scan_steps_by_chunk (cfg : SectorConfig) (buf : Bytes) (pagesize : Nat) :
    (phaseScan md5 cfg buf pagesize).map HashRequest.id =
        (List.range (pagesize / cfg.chunkSize)).map (· * cfg.chunkSize) ∧
      ((phaseScan md5 cfg buf pagesize).map HashRequest.id).Sorted (· < ·) ∧
      (∀ r ∈ phaseScan md5 cfg buf pagesize,
        r.digest = md5 ((buf.drop r.id).take cfg.chunkSize)) ∧
      ((∀ i, i ∈ (phaseScan md5 cfg buf pagesize).map HashRequest.id ↔
          i % cfg.sectorSize = 0 ∧ i + cfg.chunkSize ≤ pagesize) ↔
        cfg.chunkSize = cfg.sectorSize ∨ pagesize < cfg.chunkSize + cfg.sectorSize) := by
  have hs := cfg.sectorSize_pos
  have hsc : cfg.sectorSize ≤ cfg.chunkSize :=
    Nat.le_of_dvd cfg.chunkSize_pos (Nat.dvd_of_mod_eq_zero cfg.aligned)
  refine ⟨ids_phaseScan cfg buf pagesize, sorted_ids_phaseScan cfg buf pagesize,
    digest_scanFrom _ _, ⟨fun h => ?_, fun h i => ?_⟩⟩
  · -- the first sector boundary past 0 is asked for only if it is a chunk boundary
    by_contra hne
    rw [not_or] at hne
    have hlt : cfg.sectorSize < cfg.chunkSize := lt_of_le_of_ne hsc (Ne.symm hne.1)
    have hmem := (h cfg.sectorSize).2 ⟨Nat.mod_self _, by omega⟩
    rw [mem_ids_phaseScan, Nat.mod_eq_of_lt hlt] at hmem
    omega
  · rw [mem_ids_phaseScan]
    rcases h with heq | hlt
    · rw [heq]
    · -- a chunk fits only at offsets below one sector, and of those only at 0
      constructor <;> rintro ⟨h0, hi⟩ <;> refine ⟨?_, hi⟩
      · rw [Nat.mod_eq_of_lt (by omega : i < cfg.chunkSize)] at h0
        rw [h0, Nat.zero_mod]
      · rw [Nat.mod_eq_of_lt (by omega : i < cfg.sectorSize)] at h0
        rw [h0, Nat.zero_mod]

/-! ## Recording the responses -/

/-- A response of the lookup, `hash_response_md5_t`: the id of the request it answers, its
digest, and the count of the hash in the database. -/
structure HashResponse (D : Type) where
  id : Nat
  digest : D
  duplicatesCount : Nat

/-- `hashes_response_md5_t`: the chunk size the database was built with, and the responses. -/
structure HashesResponse (D : Type) where
  chunkSize : Nat
  hashResponses : List (HashResponse D)

/-- A feature `md5_recorder->write(pos0, feature, context)` records: its offset, `sbuf.pos0`'s
plus the response's id (the forensic path of `pos0` is left out), the hex digest, and the
count written in decimal. -/
structure Feature where
  offset : Nat
  feature : String
  context : String

/-- How `PHASE_SCAN` ends: it returns, having written `help` and recorded `features`, or it
calls `exit(1)` after writing `help`. -/
inductive ScanOutcome
  | returned (help : String) (features : List Feature)
  | exited (help : String)

/-- `PHASE_SCAN` after the lookup, with `success` its result and `hexdigest` `md5_t::hexdigest`:
"Error in scan_sectorid hash lookup" on a failed lookup, an exit on a database of another
chunk size, else one feature per response. -/
def scanResponse (hexdigest : D → String) (chunkSize pos0 : Nat) (success : Bool)
    (response : HashesResponse D) : ScanOutcome :=
  if !success then .returned "Error in scan_sectorid hash lookup\n" []
  else if response.chunkSize ≠ chunkSize then
    .exited ("Error: The scanner is hashing using a chunk size of " ++ toString chunkSize ++ "\n" ++
      " but the hashdb contains hashes for data of chunk size " ++ toString response.chunkSize ++
      ".\n" ++ "Cannot continue.\n")
  else .returned "" (response.hashResponses.map fun r =>
    ⟨pos0 + r.id, hexdigest r.digest, toString r.duplicatesCount⟩)

end Scan

end Scan
end HashDb
