import HashDb.Basic

/-!
# Growing the map: `maybe_grow`

LMDB keeps a database in a memory map of `me_mapsize` bytes, cut into pages of `ms_psize`
bytes. A write transaction takes pages after the last one in use, `me_last_pgno`, and `mdb_put`
fails with `MDB_MAP_FULL` when a page it needs lies past the map. Before each `insert` of the
hash data store opens its write transaction, `lmdb_helper::maybe_grow` (src/src/lmdb_helper.h)
doubles the map size when `me_mapsize / ms_psize == me_last_pgno + 2`; `insert` reports a
failed put as "LMDB error" and reaches `assert(0)`.

A transaction is modelled by the number of pages it takes after the last one; it fails if the
last page it takes is not inside the map. A run of `insert`s (`insertRun`) takes the growth rule
as a parameter, and `maybeGrow` is the code's rule. Its test is an equality, so:

* a transaction of two pages from three pages short of the end steps over it, and the next
  transaction fills the map: from every environment some run of transactions of at most two
  pages fails (`maybe_grow_misses_threshold`);
* transactions of at most one page cannot step over it: from an environment with room for two
  more pages, every run of them fits and keeps that room (`single_page_growth_keeps_room`).

The doubling is done in `size_t`; the model does not wrap it.
-/

namespace HashDb
namespace Lmdb

/-- What `maybe_grow` reads of an environment: `me_mapsize`, `ms_psize` and `me_last_pgno`. -/
structure Env where
  mapsize : Nat
  psize : Nat
  lastPgno : Nat
  psize_pos : 0 < psize

/-- The pages the map holds, `me_mapsize / ms_psize`. -/
def Env.capacity (env : Env) : Nat := env.mapsize / env.psize

@[simp] theorem Env.capacity_lastPgno (env : Env) (n : Nat) :
    ({ env with lastPgno := n } : Env).capacity = env.capacity := rfl

/-- `maybe_grow(env)`: double the map size (`mdb_env_set_mapsize`) when the map holds exactly
two pages more than the last page number. -/
def maybeGrow (env : Env) : Env :=
  if env.mapsize / env.psize = env.lastPgno + 2 then { env with mapsize := env.mapsize * 2 }
  else env

/-- The write transaction of an `insert` that takes `pages` pages after the last one; when the
last of them lies past the map, `mdb_put` fails and `insert` reports "LMDB error". -/
def writePages (env : Env) (pages : Nat) : Except Fault Env :=
  if env.lastPgno + pages < env.capacity then .ok { env with lastPgno := env.lastPgno + pages }
  else .error .lmdbError

/-- A run of `insert`s under the growth rule `grow`, each taking the given number of pages:
`grow`, then the transaction; the first failure ends the run. -/
def insertRun (grow : Env → Env) : Env → List Nat → Except Fault Env
  | env, [] => .ok env
  | env, pages :: rest =>
    match writePages (grow env) pages with
    | .ok env' => insertRun grow env' rest
    | .error f => .error f

section Run

variable {grow : Env → Env} {env : Env}

@[simp] theorem insertRun_nil : insertRun grow env [] = .ok env := rfl

theorem insertRun_cons_ok {pages : Nat} {rest : List Nat} {env' : Env}
    (h : writePages (grow env) pages = .ok env') :
    insertRun grow env (pages :: rest) = insertRun grow env' rest := by
  rw [insertRun, h]

theorem insertRun_append (l r : List Nat) :
    insertRun grow env (l ++ r) = match insertRun grow env l with
      | .ok env' => insertRun grow env' r
      | .error f => .error f := by
  induction l generalizing env with
  | nil => rfl
  | cons p ps ih =>
    simp only [List.cons_append, insertRun]
    split
    · exact ih
    · rfl

theorem writePages_of_lt {pages : Nat} (h : env.lastPgno + pages < env.capacity) :
    writePages env pages = .ok { env with lastPgno := env.lastPgno + pages } := if_pos h

theorem writePages_of_le {pages : Nat} (h : env.capacity ≤ env.lastPgno + pages) :
    writePages env pages = .error .lmdbError := if_neg (by omega)

end Run

/-- Below the threshold `maybe_grow` leaves the map as it is. -/
theorem maybeGrow_of_lt {env : Env} (h : env.lastPgno + 2 ≠ env.capacity) : maybeGrow env = env :=
  if_neg h.symm

/-- At the threshold `maybe_grow` doubles the map size. -/
theorem maybeGrow_of_eq {env : Env} (h : env.lastPgno + 2 = env.capacity) :
    maybeGrow env = { env with mapsize := env.mapsize * 2 } :=
  if_pos h.symm

/-- One page at a time, the run never reaches the threshold while it stays more than two pages
short of the end. -/
theorem insertRun_ones (env : Env) :
    ∀ n, env.lastPgno + n + 2 < env.capacity →
      insertRun maybeGrow env (List.replicate n 1) = .ok { env with lastPgno := env.lastPgno + n }
  | 0, _ => rfl
  | n + 1, h => by
    rw [List.replicate_succ, insertRun_cons_ok (by rw [maybeGrow_of_lt (by omega),
      writePages_of_lt (by omega)])]
    exact (insertRun_ones _ n (by simp; omega)).trans (by simp [Nat.add_assoc, Nat.add_comm 1 n])

/-- From every environment with room left, one page at a time up to three pages short of the
end, then two pages and one: no transaction takes more than two pages, `maybe_grow` never
fires, and the last transaction fills the map. -/
theorem maybe_grow_misses_threshold (env : Env) (h : env.lastPgno + 2 < env.capacity) :
    (∀ p ∈ List.replicate (env.capacity - env.lastPgno - 3) 1 ++ [2, 1], p ≤ 2) ∧
      insertRun maybeGrow env (List.replicate (env.capacity - env.lastPgno - 3) 1 ++ [2, 1]) =
        .error .lmdbError := by
  refine ⟨fun p hp => ?_, ?_⟩
  · simp only [List.mem_append, List.mem_replicate, List.mem_cons, List.mem_singleton,
      List.not_mem_nil, or_false] at hp
    omega
  · rw [insertRun_append, insertRun_ones env _ (by omega)]
    -- three pages short of the end: two pages fit, and step over the threshold
    generalize he3 : ({ env with lastPgno := env.lastPgno + (env.capacity - env.lastPgno - 3) } :
      Env) = e3
    have hc3 : e3.capacity = env.capacity := by rw [← he3]; rfl
    have hl3 : e3.lastPgno + 3 = e3.capacity := by rw [hc3, ← he3]; dsimp only; omega
    show insertRun maybeGrow e3 [2, 1] = _
    rw [insertRun_cons_ok (by rw [maybeGrow_of_lt (by omega), writePages_of_lt (by omega)]),
      insertRun, maybeGrow_of_lt (by simp; omega), writePages_of_le (by simp; omega)]

/-- A map of ten pages of which page 7 is the last in use: two pages, then one. -/
theorem maybe_grow_misses_threshold_ten :
    (Env.mk 40960 4096 7 (by decide)).lastPgno + 2 < (Env.mk 40960 4096 7 (by decide)).capacity ∧
      (∀ p ∈ List.replicate ((Env.mk 40960 4096 7 (by decide)).capacity - 7 - 3) 1 ++ [2, 1],
          p ≤ 2) ∧
        insertRun maybeGrow (Env.mk 40960 4096 7 (by decide))
            (List.replicate ((Env.mk 40960 4096 7 (by decide)).capacity - 7 - 3) 1 ++ [2, 1]) =
          .error .lmdbError :=
  ⟨by decide, maybe_grow_misses_threshold _ (by decide)⟩

/-! ## Transactions of one page -/

/-- Doubling the map at least doubles its pages. -/
theorem capacity_double (env : Env) :
    2 * env.capacity ≤ ({ env with mapsize := env.mapsize * 2 } : Env).capacity := by
  simp only [Env.capacity]
  rw [Nat.le_div_iff_mul_le env.psize_pos, Nat.mul_assoc, Nat.mul_comm env.mapsize]
  exact Nat.mul_le_mul_left 2 (Nat.div_mul_le_self _ _)

/-- One `insert` of at most one page from an environment with room for two more: at the
threshold the map doubles, below it the map has room for three; either way the page fits and
the room for two more pages is kept. -/
theorem room_step {env : Env} (h : env.lastPgno + 2 ≤ env.capacity) {pages : Nat}
    (hp : pages ≤ 1) :
    ∃ env', writePages (maybeGrow env) pages = .ok env' ∧ env'.lastPgno + 2 ≤ env'.capacity := by
  have hg : (maybeGrow env).lastPgno = env.lastPgno ∧
      env.lastPgno + 3 ≤ (maybeGrow env).capacity := by
    by_cases heq : env.lastPgno + 2 = env.capacity
    · have := capacity_double env
      rw [maybeGrow_of_eq heq]
      exact ⟨rfl, by omega⟩
    · rw [maybeGrow_of_lt heq]
      exact ⟨rfl, by omega⟩
  exact ⟨_, writePages_of_lt (by omega), by simp only [Env.capacity_lastPgno]; omega⟩

/-- Under `maybe_grow`, from an environment with room for two more pages, every run of
transactions of at most one page fits, and keeps that room. -/
theorem single_page_growth_keeps_room (env : Env) (h : env.lastPgno + 2 ≤ env.capacity)
    (run : List Nat) (hrun : ∀ p ∈ run, p ≤ 1) :
    ∃ env', insertRun maybeGrow env run = .ok env' ∧ env'.lastPgno + 2 ≤ env'.capacity := by
  induction run generalizing env with
  | nil => exact ⟨env, rfl, h⟩
  | cons p ps ih =>
    obtain ⟨env1, h1, hr1⟩ := room_step h (hrun p (List.mem_cons_self _ _))
    rw [insertRun_cons_ok h1]
    exact ih env1 hr1 fun q hq => hrun q (List.mem_cons_of_mem _ hq)

/-- A map of ten pages of which page 8 is the last in use, at the threshold: three transactions
of one page. -/
theorem single_page_growth_keeps_room_ten :
    (Env.mk 40960 4096 8 (by decide)).lastPgno + 2 ≤ (Env.mk 40960 4096 8 (by decide)).capacity ∧
      (∀ p ∈ [1, 1, 1], p ≤ 1) ∧
        ∃ env', insertRun maybeGrow (Env.mk 40960 4096 8 (by decide)) [1, 1, 1] = .ok env' ∧
          env'.lastPgno + 2 ≤ env'.capacity :=
  ⟨by decide, by decide, single_page_growth_keeps_room _ (by decide) [1, 1, 1] (by decide)⟩

end Lmdb
end HashDb
