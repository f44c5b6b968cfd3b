import Mathlib.Algebra.Order.BigOperators.Group.Finset
import DefaultLowering.Program.Printer
import DefaultLowering.Proofs.Asking
import DefaultLowering.Proofs.Loading

/-!
# Runs that share a cache

Several runs may go on at the same time and use one cache.  The cache is a map from keys to identifiers
with atomic loads and stores, but a call that asks for an identifier is not atomic: it loads, and if
that misses it computes the identifier and stores it, and other runs may load and store in between.
Here the runs are threads that take turns at the cache in any order.

- `Sharing`: the threads, the cache, and the calls answered so far;
- `Records`: the cache holds what the calls have asked for, and all answers are right;
- `Step.sound`: a load or a store keeps this, and takes a thread nearer to its end;
- `reaches_invisible`: no thread can tell that it is not alone.
-/

namespace DefaultLowering

/-! ## Section 1: The cache as a map -/

namespace NameCache

/-- Stores an identifier, in place of what is stored under the key. -/
def store (c : NameCache) (key : MethodKey) (ident : String) : NameCache :=
  ⟨c.idents.filter (fun entry => entry.1 != key) ++ [(key, ident)]⟩

/-- The keys under which something is stored. -/
def keys (c : NameCache) : List MethodKey := c.idents.map Prod.fst

variable {c : NameCache} {p : Program} {m : MethodRef} {key : MethodKey} {ident : String}

/-- A store under a new key. -/
theorem store_of_lookup (h : c.idents.lookup key = none) (ident : String) :
    c.store key ident = ⟨c.idents ++ [(key, ident)]⟩ := by
  have hother : ∀ entry ∈ c.idents, (entry.1 != key) = true := by
    intro entry hentry
    rw [bne_comm]
    exact List.lookup_eq_none_iff.mp h entry hentry
  unfold store
  rw [List.filter_eq_self.mpr hother]

theorem identOf_of_hit (h : c.idents.lookup (p.key m) = some ident) :
    c.identOf p m = (ident, c) := by
  unfold identOf
  rw [h]

/-- Without anyone in between, a miss is followed by the store. -/
theorem identOf_of_miss (h : c.idents.lookup (p.key m) = none) :
    c.identOf p m = (p.memberIdent m, c.store (p.key m) (p.memberIdent m)) := by
  rw [store_of_lookup h]
  unfold identOf
  rw [h]
  rfl

theorem nodup_keys_store (h : c.keys.Nodup) (key : MethodKey) (ident : String) :
    (c.store key ident).keys.Nodup := by
  unfold keys store
  rw [List.map_append, List.map_singleton, ← List.concat_eq_append]
  refine List.Nodup.concat ?_ (h.sublist (List.filter_sublist.map Prod.fst))
  intro hkey
  obtain ⟨entry, hentry, heq⟩ := List.mem_map.mp hkey
  exact bne_iff_ne.mp (List.mem_filter.mp hentry).2 heq

end NameCache

/-! ## Section 2: Threads -/

/-- A call for the identifier of a method that has been answered. -/
structure NameCall where
  program : Program
  method : MethodRef
  answer : String

/-- What is to be stored for the call. -/
def NameCall.entry (x : NameCall) : MethodKey × String :=
  (x.program.key x.method, x.program.memberIdent x.method)

/-- A run under way. -/
inductive Thread where
  /-- The next thing is to load, unless the run is done. -/
  | running (x : Asking Report)
  /-- The load has missed, and the next thing is to store. -/
  | storing (p : Program) (m : MethodRef) (next : String → Asking Report)

namespace Thread

/-- The questions to which the thread has no answer yet. -/
def left : Thread → Asking Report
  | running x => x
  | storing p m next => .ask p m next

/-- How many loads and stores there are to come. -/
def remaining : Thread → Nat
  | running x => 2 * x.questions
  | storing p m next => 2 * (next (p.memberIdent m)).questions + 1

end Thread

/-- Runs that share a cache, and the calls answered so far. -/
structure Sharing (k : Nat) where
  cache : NameCache
  calls : List NameCall
  threads : Fin k → Thread

namespace Sharing

variable {k : Nat}

/-- The runs are about to begin. -/
def start (check : Bool) (c : NameCache) (calls : List NameCall) (progs : Fin k → Program) :
    Sharing k :=
  ⟨c, calls, fun i => .running ((progs i).lowering check)⟩

/-- One thread loads or stores. -/
inductive Step (s : Sharing k) : Sharing k → Prop where
  | hit {i p m next ident} (hi : s.threads i = .running (.ask p m next))
      (hload : s.cache.idents.lookup (p.key m) = some ident) :
      Step s ⟨s.cache, s.calls ++ [⟨p, m, ident⟩],
        Function.update s.threads i (.running (next ident))⟩
  | miss {i p m next} (hi : s.threads i = .running (.ask p m next))
      (hload : s.cache.idents.lookup (p.key m) = none) :
      Step s ⟨s.cache, s.calls, Function.update s.threads i (.storing p m next)⟩
  | store {i p m next} (hi : s.threads i = .storing p m next) :
      Step s ⟨s.cache.store (p.key m) (p.memberIdent m), s.calls ++ [⟨p, m, p.memberIdent m⟩],
        Function.update s.threads i (.running (next (p.memberIdent m)))⟩

/-- The threads have taken some turns, in whatever order. -/
inductive Reaches : Sharing k → Nat → Sharing k → Prop where
  | refl (s) : Reaches s 0 s
  | head {s t u n} (hstep : s.Step t) (hrest : Reaches t n u) : Reaches s (n + 1) u

theorem Reaches.trans {s t u : Sharing k} {n n' : Nat} (h : s.Reaches n t) (h' : t.Reaches n' u) :
    s.Reaches (n + n') u := by
  induction h with
  | refl =>
    rw [Nat.zero_add]
    exact h'
  | head hstep _ ih =>
    rw [Nat.add_right_comm]
    exact .head hstep (ih h')

/-- All runs are done. -/
def Finished (s : Sharing k) : Prop := ∀ i, ∃ r, s.threads i = .running (.done r)

end Sharing

/-- A cache that has served programs with a property, some of them at the same time, and the calls it
    has answered. -/
inductive Used (P : Program → Prop) (check : Bool) : NameCache → List NameCall → Prop where
  | new : Used P check {} []
  | use {c calls k n} {progs : Fin k → Program} {s : Sharing k} (hused : Used P check c calls)
      (hprogs : ∀ i, P (progs i)) (hrun : (Sharing.start check c calls progs).Reaches n s) :
      Used P check s.cache s.calls

/-! ## Section 3: What the cache holds -/

/-- All calls were about programs with plain keys and have the right answers, and these are what the
    cache holds, one for each key. -/
structure Records (c : NameCache) (calls : List NameCall) : Prop where
  plain : ∀ x ∈ calls, x.program.PlainKeys
  answers : ∀ x ∈ calls, x.answer = x.program.memberIdent x.method
  keys : c.keys.Nodup
  entries : ∀ e, e ∈ c.idents ↔ ∃ x ∈ calls, x.entry = e

namespace Records

variable {c : NameCache} {calls : List NameCall} {p : Program} {m : MethodRef} {ident : String}

theorem empty : Records {} [] where
  plain := nofun
  answers := nofun
  keys := List.nodup_nil
  entries e := by simp

/-- What a load finds is the identifier, whoever has stored it. -/
theorem of_hit (h : Records c calls) (hp : p.PlainKeys)
    (hload : c.idents.lookup (p.key m) = some ident) : ident = p.memberIdent m := by
  obtain ⟨x, hx, hentry⟩ := (h.entries _).mp (NameCache.mem_of_lookup hload)
  obtain ⟨hkey, rfl⟩ := Prod.mk.inj hentry
  exact Program.memberIdent_of_key (h.plain x hx) hp hkey

theorem hit (h : Records c calls) (hp : p.PlainKeys)
    (hload : c.idents.lookup (p.key m) = some ident) :
    Records c (calls ++ [⟨p, m, ident⟩]) := by
  have hident := h.of_hit hp hload
  refine ⟨?_, ?_, h.keys, ?_⟩
  · exact List.forall_mem_append.mpr ⟨h.plain, List.forall_mem_singleton.mpr hp⟩
  · exact List.forall_mem_append.mpr ⟨h.answers, List.forall_mem_singleton.mpr hident⟩
  · intro e
    rw [h.entries]
    refine ⟨fun ⟨x, hx, hentry⟩ => ⟨x, List.mem_append_left _ hx, hentry⟩, ?_⟩
    rintro ⟨x, hx, rfl⟩
    rcases List.mem_append.mp hx with hx | hx
    · exact ⟨x, hx, rfl⟩
    · -- the identifier is there already
      rw [List.mem_singleton.mp hx, ← h.entries, NameCall.entry, ← hident]
      exact NameCache.mem_of_lookup hload

/-- A store, even if another thread has stored under the key in the meantime. -/
theorem store (h : Records c calls) (hp : p.PlainKeys) (m : MethodRef) :
    Records (c.store (p.key m) (p.memberIdent m)) (calls ++ [⟨p, m, p.memberIdent m⟩]) := by
  refine ⟨?_, ?_, NameCache.nodup_keys_store h.keys _ _, ?_⟩
  · exact List.forall_mem_append.mpr ⟨h.plain, List.forall_mem_singleton.mpr hp⟩
  · exact List.forall_mem_append.mpr ⟨h.answers, List.forall_mem_singleton.mpr rfl⟩
  · intro e
    constructor
    · intro he
      rcases List.mem_append.mp he with he | he
      · obtain ⟨x, hx, hentry⟩ := (h.entries e).mp (List.mem_filter.mp he).1
        exact ⟨x, List.mem_append_left _ hx, hentry⟩
      · exact ⟨_, List.mem_append_right _ List.mem_cons_self, (List.mem_singleton.mp he).symm⟩
    · rintro ⟨x, hx, rfl⟩
      by_cases hkey : x.program.key x.method = p.key m
      · -- whatever the call was about, its entry is the one stored last
        have hx' : x.program.PlainKeys := by
          rcases List.mem_append.mp hx with hx | hx
          · exact h.plain x hx
          · rw [List.mem_singleton.mp hx]
            exact hp
        rw [NameCall.entry, Program.memberIdent_of_key hx' hp hkey, hkey]
        exact List.mem_append_right _ List.mem_cons_self
      · apply List.mem_append_left
        rcases List.mem_append.mp hx with hx | hx
        · exact List.mem_filter.mpr ⟨(h.entries _).mpr ⟨x, hx, rfl⟩, bne_iff_ne.mpr hkey⟩
        · rw [List.mem_singleton.mp hx] at hkey
          exact absurd rfl hkey

/-- A call that nobody disturbs. -/
theorem identOf (h : Records c calls) (hp : p.PlainKeys) (m : MethodRef) :
    (c.identOf p m).1 = p.memberIdent m ∧
      Records (c.identOf p m).2 (calls ++ [⟨p, m, p.memberIdent m⟩]) := by
  cases hload : c.idents.lookup (p.key m) with
  | none =>
    rw [NameCache.identOf_of_miss hload]
    exact ⟨rfl, h.store hp m⟩
  | some =>
    rw [NameCache.identOf_of_hit hload, ← h.of_hit hp hload]
    exact ⟨rfl, h.hit hp hload⟩

end Records

/-- Right answers lead to the result that any cache with right entries leads to. -/
theorem Asking.Holds.answered {x : Asking Report} {Q : Report → Prop} (hx : x.Holds Q)
    {c : NameCache} {calls : List NameCall} (hc : Records c calls) :
    x.Holds fun a => a = (x.answered c).1 := by
  induction x generalizing c calls with
  | done => exact rfl
  | ask p m next ih =>
    -- the answer of the cache is the right one, and the cache stays right
    obtain ⟨hp, hnext⟩ := hx
    obtain ⟨hident, hrecords⟩ := hc.identOf hp m
    refine ⟨hp, ?_⟩
    unfold Asking.answered
    rw [hident]
    exact ih _ hnext hrecords

namespace Sharing

variable {k : Nat} {s t : Sharing k}

/-! ## Section 4: Turns in any order -/

/-- The cache holds what it should, and each thread is on its way to its report. -/
structure Sound (reports : Fin k → Report) (s : Sharing k) : Prop where
  records : Records s.cache s.calls
  threads : ∀ i, (s.threads i).left.Holds fun a => a = reports i

/-- How many loads and stores there are to come. -/
def remaining (s : Sharing k) : Nat := ∑ i, (s.threads i).remaining

theorem threads_update {reports : Fin k → Report} (h : s.Sound reports) (i : Fin k) {x : Thread}
    (hx : x.left.Holds fun a => a = reports i) (j : Fin k) :
    (Function.update s.threads i x j).left.Holds fun a => a = reports j := by
  by_cases hj : j = i
  · subst hj
    rw [Function.update_self]
    exact hx
  · rw [Function.update_of_ne hj]
    exact h.threads j

/-- One thread is nearer to its end, and the others are where they were. -/
theorem remaining_update (i : Fin k) {x : Thread} (hx : x.remaining < (s.threads i).remaining) :
    ∑ j, (Function.update s.threads i x j).remaining < s.remaining := by
  apply Finset.sum_lt_sum
  · intro j _
    by_cases hj : j = i
    · subst hj
      rw [Function.update_self]
      exact hx.le
    · rw [Function.update_of_ne hj]
  · refine ⟨i, Finset.mem_univ i, ?_⟩
    rw [Function.update_self]
    exact hx

/-- A load or a store leaves all threads on their ways, and takes one nearer to its end. -/
theorem Step.sound (hstep : s.Step t) {reports : Fin k → Report} (h : s.Sound reports) :
    t.Sound reports ∧ t.remaining < s.remaining := by
  cases hstep with
  | @hit i p m next ident hi hload =>
    have hthread := h.threads i
    rw [hi] at hthread
    obtain ⟨hp, hnext⟩ := hthread
    -- whoever has stored the answer, it is the one that the thread would have given itself
    have hident := h.records.of_hit hp hload
    rw [← hident] at hnext
    refine ⟨⟨h.records.hit hp hload, threads_update h i hnext⟩, remaining_update i ?_⟩
    rw [hi, Thread.remaining, Thread.remaining, Asking.questions, ← hident]
    omega
  | @miss i p m next hi hload =>
    -- the question is still open, and only the store is left of it
    have hthread := h.threads i
    rw [hi] at hthread
    refine ⟨⟨h.records, threads_update h i hthread⟩, remaining_update i ?_⟩
    rw [hi, Thread.remaining, Thread.remaining, Asking.questions]
    omega
  | @store i p m next hi =>
    have hthread := h.threads i
    rw [hi] at hthread
    obtain ⟨hp, hnext⟩ := hthread
    refine ⟨⟨h.records.store hp m, threads_update h i hnext⟩, remaining_update i ?_⟩
    rw [hi, Thread.remaining, Thread.remaining]
    omega

theorem Reaches.sound {n : Nat} (hrun : s.Reaches n t) {reports : Fin k → Report}
    (h : s.Sound reports) : t.Sound reports ∧ n + t.remaining ≤ s.remaining := by
  induction hrun with
  | refl => exact ⟨h, by omega⟩
  | head hstep _ ih =>
    obtain ⟨hnext, hless⟩ := hstep.sound h
    obtain ⟨hlast, hbound⟩ := ih hnext
    exact ⟨hlast, by omega⟩

/-- Where not all runs are done, a thread can take a turn. -/
theorem finished_or_step (s : Sharing k) : s.Finished ∨ ∃ t, s.Step t := by
  by_cases hdone : s.Finished
  · exact .inl hdone
  · obtain ⟨i, hi⟩ := not_forall.mp hdone
    right
    cases hthread : s.threads i with
    | storing => exact ⟨_, .store hthread⟩
    | running x =>
      cases x with
      | done r => exact absurd ⟨r, hthread⟩ hi
      | ask p m =>
        cases hload : s.cache.idents.lookup (p.key m) with
        | none => exact ⟨_, .miss hthread hload⟩
        | some => exact ⟨_, .hit hthread hload⟩

/-- The runs begin on their ways to what they report alone. -/
theorem sound_start (check : Bool) {c : NameCache} {calls : List NameCall} (hc : Records c calls)
    {progs : Fin k → Program} (hprogs : ∀ i, (progs i).PlainKeys) :
    (start check c calls progs).Sound fun i => ((progs i).run check {}).report := by
  refine ⟨hc, ?_⟩
  intro i
  have hholds := (Program.lowering_holds check (hprogs i)).answered Records.empty
  rw [Program.lowering_answered] at hholds
  exact hholds

/-- A thread that alone takes its turns does what the run does. -/
theorem exists_reaches_answered (s : Sharing k) (i : Fin k) {x : Asking Report}
    (hi : s.threads i = .running x) : ∃ n t, s.Reaches n t ∧ t.cache = (x.answered s.cache).2 ∧
      t.threads = Function.update s.threads i (.running (.done (x.answered s.cache).1)) := by
  induction x generalizing s with
  | done =>
    refine ⟨0, s, .refl s, rfl, ?_⟩
    rw [Asking.answered, ← hi, Function.update_eq_self]
  | ask p m next ih =>
    unfold Asking.answered
    cases hload : s.cache.idents.lookup (p.key m) with
    | some ident =>
      rw [NameCache.identOf_of_hit hload]
      obtain ⟨n, t, hrest, hcache, hthreads⟩ := ih ident
        ⟨s.cache, s.calls ++ [⟨p, m, ident⟩], Function.update s.threads i (.running (next ident))⟩
        (Function.update_self ..)
      refine ⟨n + 1, t, .head (.hit hi hload) hrest, hcache, ?_⟩
      rw [hthreads, Function.update_idem]
    | none =>
      rw [NameCache.identOf_of_miss hload]
      -- nobody stores in between
      let missed : Sharing k := ⟨s.cache, s.calls, Function.update s.threads i (.storing p m next)⟩
      have hmissed : missed.threads i = .storing p m next := Function.update_self ..
      obtain ⟨n, t, hrest, hcache, hthreads⟩ := ih (p.memberIdent m)
        ⟨_, _, Function.update missed.threads i (.running (next (p.memberIdent m)))⟩
        (Function.update_self ..)
      refine ⟨n + 2, t, .head (.miss hi hload) (.head (.store hmissed) hrest), hcache, ?_⟩
      rw [hthreads, Function.update_idem, Function.update_idem]

end Sharing

/-- Serving programs with plain keys, a cache comes to hold nothing but right entries. -/
theorem Used.records {check : Bool} {c : NameCache} {calls : List NameCall}
    (h : Used Program.PlainKeys check c calls) : Records c calls := by
  induction h with
  | new => exact .empty
  | use _ hprogs hrun ih => exact (hrun.sound (Sharing.sound_start check ih hprogs)).1.records

namespace Sharing

variable {k : Nat}

/-! ## Section 5: Sharing cannot be seen -/

/-- After `n` turns in whatever order, nothing tells that the cache is shared. -/
structure Invisible (check : Bool) (progs : Fin k → Program) (n : Nat) (s : Sharing k) : Prop where
  /-- Each call has returned the identifier of its own method. -/
  answers : ∀ x ∈ s.calls, x.answer = "@" ++ x.program.memberText x.method
  /-- A run that is done reports what it reports alone with a new cache. -/
  reports : ∀ i r, s.threads i = .running (.done r) → r = ((progs i).run check {}).report
  /-- The cache holds what has been asked for, with one entry for each key. -/
  keys : s.cache.keys.Nodup
  entries : ∀ e, e ∈ s.cache.idents ↔ ∃ x ∈ s.calls, (x.program.key x.method, x.answer) = e
  /-- There is an end to the turns, and all runs are done then. -/
  bounded : n ≤ ∑ i, 2 * ((progs i).lowering check).questions
  progress : s.Finished ∨ ∃ t, s.Step t
  /-- What the threads do is what a run does with a cache of its own. -/
  faithful : ∀ i c, ((progs i).lowering check).answered c =
    (((progs i).run check c).report, ((progs i).run check c).cache)

/-- Programs with plain keys are lowered as if each was alone with a new cache, whatever the order of
    turns and whatever other programs with plain keys the cache has served. -/
theorem reaches_invisible {check : Bool} {progs : Fin k → Program}
    (hprogs : ∀ i, (progs i).PlainKeys) {c : NameCache} {calls : List NameCall}
    (hused : Used Program.PlainKeys check c calls) {n : Nat} {s : Sharing k}
    (hrun : (start check c calls progs).Reaches n s) : Invisible check progs n s := by
  obtain ⟨⟨hrecords, hthreads⟩, hbound⟩ := hrun.sound (sound_start check hused.records hprogs)
  refine ⟨hrecords.answers, ?_, hrecords.keys, ?_, ?_, s.finished_or_step, ?_⟩
  · intro i r hi
    have hthread := hthreads i
    rw [hi] at hthread
    exact hthread
  · intro e
    rw [hrecords.entries]
    apply exists_congr
    intro x
    apply and_congr_right
    intro hx
    rw [hrecords.answers x hx, NameCall.entry]
  · exact (Nat.le_add_right ..).trans hbound
  · exact fun i c => (progs i).lowering_answered check c

/-- Two runs on one program at the same time, with a cache that has served the program before. -/
theorem reaches_invisible_greeting : ∃ c calls n s, Program.greetingProgram.PlainKeys ∧
    Used Program.PlainKeys true c calls ∧
      (start true c calls fun _ : Fin 2 => Program.greetingProgram).Reaches n s ∧ s.Finished ∧
      Invisible true (fun _ => Program.greetingProgram) n s := by
  have hplain : Program.greetingProgram.PlainKeys := by decide +kernel
  have hprogs : ∀ i : Fin 2, ((fun _ => Program.greetingProgram) i).PlainKeys := fun _ => hplain
  -- an earlier use, which ends before the other thread has taken a turn
  let first : Sharing 2 := start true {} [] fun _ => Program.greetingProgram
  obtain ⟨n, earlier, hfirst, -, -⟩ := first.exists_reaches_answered 0 rfl
  have hused := Used.use .new hprogs hfirst
  -- one thread after the other
  let second : Sharing 2 := start true earlier.cache earlier.calls fun _ => Program.greetingProgram
  obtain ⟨n₀, s₀, hrun₀, -, hthreads₀⟩ := second.exists_reaches_answered 0 rfl
  have hone : s₀.threads 1 = .running (Program.greetingProgram.lowering true) := by
    rw [hthreads₀, Function.update_of_ne (by decide)]
    rfl
  obtain ⟨n₁, s₁, hrun₁, -, hthreads₁⟩ := s₀.exists_reaches_answered 1 hone
  have hrun := hrun₀.trans hrun₁
  refine ⟨_, _, _, s₁, hplain, hused, hrun, ?_, reaches_invisible hprogs hused hrun⟩
  rw [Finished, Fin.forall_fin_two, hthreads₁, hthreads₀]
  exact ⟨⟨_, rfl⟩, ⟨_, rfl⟩⟩

/-! ## Section 6: Keys that do not determine identifiers -/

/-- A type with a method that has the key of a twin in `overshadowed`, but another identifier. -/
def lookalike : Description where
  version := "1.0"
  types := [
    { name := "T"
      methods := [
        { name := "m$static(T,A"
          params := [{ name := "x", type := "B" }]
          returns := "String"
          body := .stmts 8 [.ret 9 (.record 9 (some "\"a\"") "" "" .absent [])] }] }]

/-- A fragment that uses a default method. -/
def overshadowed : Description where
  version := "1.0"
  types := [
    { name := "T"
      kind := "interface"
      methods := [
        { name := "m"
          params := [{ name := "x", type := "A(B" }]
          returns := "String"
          body := .stmts 9 [.ret 10 (.record 10 (some "\"a\"") "" "" .absent [])] }] },
    { name := "U"
      methods := [
        { name := "use"
          params := [{ name := "t", type := "T" }]
          returns := "Object"
          native := some "return t.@T::m(LA(B;)(1);" }] }]

/-- The program so described. -/
def described (x : Description) : Program := (Description.build "p" x).toOption.getD {}

/-- After the cache has served a program where a name has a bracket, a program with plain keys is not
    lowered as it is alone. -/
theorem reaches_visible : ∃ c calls n s r, Used (fun _ => True) true c calls ∧
    (described overshadowed).PlainKeys ∧
      (start true c calls fun _ : Fin 1 => described overshadowed).Reaches n s ∧
      s.threads 0 = .running (.done r) ∧
      r.program.text ≠ ((described overshadowed).run true {}).program.text := by
  let first : Sharing 1 := start true {} [] fun _ => described lookalike
  obtain ⟨n, earlier, hfirst, hcache, -⟩ := first.exists_reaches_answered 0 rfl
  let second : Sharing 1 := start true earlier.cache earlier.calls fun _ => described overshadowed
  obtain ⟨n', s, hrun, -, hthreads⟩ := second.exists_reaches_answered 0 rfl
  have hthread := congrFun hthreads 0
  rw [Function.update_self, Program.lowering_answered] at hthread
  refine ⟨_, _, n', s, _, .use .new (fun _ => trivial) hfirst, by decide +kernel, hrun, hthread, ?_⟩
  -- the twin is called by the identifier of the other method
  change ((described overshadowed).run true earlier.cache).program.text ≠ _
  rw [hcache, Program.lowering_answered]
  decide +kernel

end Sharing

end DefaultLowering
