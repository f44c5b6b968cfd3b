import DefaultLowering.Proofs.Outcome

/-!
# What a run records

A run returns the twins that it has made and the forwarders that it has added.  The records are kept
beside the program, but they can be told from it: a twin is static and a forwarder is not, so that the
twins are the new methods that are static, and the forwarders are the others.

- `Lasting`: a property of program and records that every single change in a walk keeps;
- `Lasting.retargetAll`: then the walk over all methods keeps it;
- `lower_recorded`: the records of a successful run.
-/

namespace DefaultLowering

namespace Program

/-! ## Section 1: New methods, static or not -/

/-- Which methods are static. -/
def staticFlags (p : Program) : List Bool := p.methods.map Method.static

/-- The methods from the index `n` on. -/
def methodsFrom (p : Program) (n : Nat) : List MethodRef :=
  (List.range' n (p.methods.length - n)).map MethodRef.mk

/-- Those of them that are static, or those that are not. -/
def methodsSince (p : Program) (n : Nat) (static : Bool) : List MethodRef :=
  (p.methodsFrom n).filter fun m => (p.method m).static == static

section

variable {p q : Program} {n : Nat}

theorem mem_methodsFrom {m : MethodRef} :
    m ∈ p.methodsFrom n ↔ n ≤ m.index ∧ m.index < p.methods.length := by
  simp only [methodsFrom, List.mem_map, List.mem_range'_1]
  constructor
  · rintro ⟨i, ⟨hge, hlt⟩, rfl⟩
    exact ⟨hge, by dsimp only; omega⟩
  · rintro ⟨hge, hlt⟩
    exact ⟨m.index, ⟨hge, by omega⟩, rfl⟩

theorem methodsFrom_self (p : Program) : p.methodsFrom p.methods.length = [] := by
  simp [methodsFrom]

/-- One method more. -/
theorem methodsFrom_succ (hn : n ≤ p.methods.length)
    (hlength : q.methods.length = p.methods.length + 1) :
    q.methodsFrom n = p.methodsFrom n ++ [p.next] := by
  have hcount : q.methods.length - n = p.methods.length - n + 1 := by omega
  have hlast : n + (p.methods.length - n) = p.methods.length := by omega
  rw [methodsFrom, hcount, List.range'_1_concat, List.map_append, hlast]
  rfl

theorem static_eq (p : Program) (m : MethodRef) :
    (p.method m).static = (p.staticFlags[m.index]?).getD false := by
  rw [staticFlags, List.getElem?_map, method]
  cases p.methods[m.index]? <;> rfl

theorem length_staticFlags (p : Program) : p.staticFlags.length = p.methods.length :=
  List.length_map _

theorem methodsSince_congr (h : q.staticFlags = p.staticFlags) (static : Bool) :
    q.methodsSince n static = p.methodsSince n static := by
  have hlength : q.methods.length = p.methods.length := by
    rw [← length_staticFlags, h, length_staticFlags]
  simp only [methodsSince, methodsFrom, hlength, static_eq, h]

/-- One method more, which is static or not. -/
theorem methodsSince_succ (hn : n ≤ p.methods.length) {flag : Bool}
    (h : q.staticFlags = p.staticFlags ++ [flag]) (static : Bool) :
    q.methodsSince n static =
      p.methodsSince n static ++ if flag = static then [p.next] else [] := by
  have hlength : q.methods.length = p.methods.length + 1 := by
    rw [← length_staticFlags, h, List.length_append, length_staticFlags]
    rfl
  -- the old methods keep their flags, so that only the new one is in question
  have hold : (p.methodsFrom n).filter (fun m => (q.method m).static == static) =
      p.methodsSince n static := by
    apply List.filter_congr
    intro m hm
    have hlt : m.index < p.staticFlags.length := by
      rw [length_staticFlags]
      exact (mem_methodsFrom.mp hm).2
    rw [static_eq, static_eq, h, List.getElem?_append_left hlt]
  have hnew : (q.method p.next).static = flag := by
    rw [static_eq, h, next, ← length_staticFlags]
    simp
  rw [methodsSince, methodsFrom_succ hn hlength, List.filter_append, hold]
  by_cases hflag : flag = static <;> simp [hnew, hflag]

end

/-! ## Section 2: What changes in the lists of methods -/

section

variable {p q : Program}

theorem staticFlags_updateMethod (m : MethodRef) {f : Method → Method}
    (hf : ∀ x, (f x).static = x.static) : (p.updateMethod m f).staticFlags = p.staticFlags := by
  apply List.ext_getElem?
  intro i
  simp only [staticFlags, updateMethod, List.getElem?_map, List.getElem?_modify]
  split
  · cases p.methods[i]? <;> simp [hf]
  · simp

theorem staticFlags_setBody (m : MethodRef) (b : Option Body) :
    (p.setBody m b).staticFlags = p.staticFlags :=
  staticFlags_updateMethod m fun _ => rfl

theorem staticFlags_withMethod (t : TypeRef) {x : Method} (hx : x.id = none) :
    (p.withMethod t x).staticFlags = p.staticFlags ++ [x.static] := by
  simp [staticFlags, withMethod_eq t hx]

theorem staticFlags_recordStatic {m k : MethodRef} (hok : p.recordStatic m k = .ok q) :
    q.staticFlags = p.staticFlags := by
  obtain rfl | ⟨i, -, -, rfl⟩ := recordStatic_ok hok
  · rfl
  · rfl

/-- A twin that is installed is the one new method. -/
theorem installTwin_flags (p : Program) (m : MethodRef) (iface : TypeRef) {x : Method}
    (hid : x.id = none) (hstatic : x.static = true) :
    (p.installTwin m iface x).1 = p.next ∧
      (p.installTwin m iface x).2.staticFlags = p.staticFlags ++ [true] := by
  refine ⟨rfl, ?_⟩
  have hadded : (p.withMethod iface { x with frozen := true }).staticFlags =
      p.staticFlags ++ [true] := by
    rw [staticFlags_withMethod iface (x := { x with frozen := true }) hid, hstatic]
  simp only [installTwin]
  rw [staticFlags_updateMethod]
  · split
    next q hok => exact (staticFlags_recordStatic hok).trans hadded
    next => exact hadded
  · exact fun _ => rfl

/-- A twin that is made is the one new method. -/
theorem requestTwin_made {m twin : MethodRef} {r : Relocation}
    (h : p.requestTwin m = .made twin q r) :
    twin = p.next ∧ q.staticFlags = p.staticFlags ++ [true] := by
  obtain ⟨-, iface, native, body, -, rfl, rfl⟩ := installTwin_of_made h
  exact installTwin_flags p m iface rfl rfl

end

/-! ## Section 3: Properties that last -/

/-- A property of the program, the visitor's state and the fault that every single change in a walk
    keeps. -/
structure Lasting (J : Program → Retargeting → Option Fault → Prop) : Prop where
  fault : ∀ {p u f} (fault : Fault), J p u f → J p u (f <|> some fault)
  /-- Identifiers and counts do not matter. -/
  user : ∀ {p u f} (u' : Retargeting), u'.twinLog = u.twinLog → J p u f → J p u' f
  globals : ∀ {p u f} (globals : List String), J p u f → J { p with globals := globals } u f
  body : ∀ {p u f} (m : MethodRef) (b : Option Body), J p u f → J (p.setBody m b) u f
  made : ∀ {p u f m twin q r}, p.requestTwin m = .made twin q r → J p u f →
    J q { u with twinLog := ⟨u.twinLog.made ++ [twin]⟩ } f
  failed : ∀ {p u f m fault q r}, p.requestTwin m = .failed fault q r → J p u f →
    J q u (f <|> some fault)

/-- The property holds in a state of a walk. -/
def WalkState.Has (J : Program → Retargeting → Option Fault → Prop) (s : WalkState Retargeting) :
    Prop :=
  J s.program s.user s.fault

/-- Begun where the property holds, the walk ends where it holds. -/
def Walk.Keeps {α : Type} (J : Program → Retargeting → Option Fault → Prop)
    (w : Walk Retargeting α) : Prop :=
  ∀ s, s.Has J → w.Ends s fun _ s' => s'.Has J

section

variable {J : Program → Retargeting → Option Fault → Prop} {α β : Type}

theorem WalkState.Has.user {s : WalkState Retargeting} (hs : s.Has J) (hJ : Lasting J)
    {u : Retargeting} (hlog : u.twinLog = s.user.twinLog) : { s with user := u }.Has J :=
  hJ.user u hlog hs

theorem WalkState.Has.globals {s : WalkState Retargeting} (hs : s.Has J) (hJ : Lasting J)
    (globals : List String) :
    { s with program := { s.program with globals := globals } }.Has J :=
  hJ.globals globals hs

namespace Walk.Keeps

theorem pure (a : α) : Keeps J (Pure.pure a) := fun _ hs => .pure hs

theorem bind {w : Walk Retargeting α} {f : α → Walk Retargeting β} (hw : Keeps J w)
    (hf : ∀ a, Keeps J (f a)) : Keeps J (w >>= f) :=
  fun s hs => .bind (hw s hs) fun a s' hs' => hf a s' hs'

theorem read {f : WalkState Retargeting → Walk Retargeting α} (hf : ∀ s, Keeps J (f s)) :
    Keeps J (get >>= f) :=
  fun s hs => .bind_get (hf s s hs)

/-- A change of the state that keeps the property. -/
theorem change {f : WalkState Retargeting → WalkState Retargeting}
    (hf : ∀ s : WalkState Retargeting, s.Has J → (f s).Has J) :
    Keeps J (modify f : Walk Retargeting Unit) :=
  hf

theorem halted : Keeps J Walk.halted := read fun _ => pure _

/-- The owner of the body and its relocation do not matter. -/
theorem move (r : Relocation) : Keeps J (Walk.move r) := change fun _ hs => hs

theorem holding (relocate : Relocation → α → α) (x : α) {rest : Walk Retargeting β}
    (h : Keeps J rest) : Keeps J (Walk.holding relocate x rest) := by
  refine read fun s => h.bind fun y => read fun s' => ?_
  split
  · exact pure _
  · exact pure _

theorem seen (x : Expr) : Keeps J (Walk.seen x) := by
  refine read fun s => ?_
  split
  · exact pure _
  · exact pure _

variable (hJ : Lasting J)

include hJ

theorem halt (fault : Fault) : Keeps J (Walk.halt fault) := change fun _ hs => hJ.fault fault hs

/-- The request for a twin. -/
theorem twinFor (m : MethodRef) : Keeps J (Program.twinFor m) := by
  intro s hs
  refine .bind_get ?_
  cases hrequest : s.program.requestTwin m with
  | known => exact .pure hs
  | made twin q r =>
    refine .bind_set ?_
    have hmade := hJ.made hrequest hs
    -- the walk follows the body it is in, if that is the one that has moved
    split
    · have howner : Keeps J (modify fun s => { s with owner := twin }) := change fun _ hs => hs
      exact (move r).bind (fun _ => howner.bind fun _ => pure _) _ hmade
    · exact .pure hmade
  | failed fault q r =>
    have hfailed := hJ.failed hrequest hs
    refine .bind_set (.bind (P := fun _ s' => s'.Has J) hfailed ?_)
    intro _ s' hs'
    split
    · cases r with
      | some r => exact (move r).bind (fun _ => pure _) s' hs'
      | none => exact .pure hs'
    · exact .pure hs'

theorem retargetCall (method : Option MethodRef) (pos : Pos) (receiver : Expr) (target : MethodRef)
    (args : List Expr) : Keeps J (Program.retargetCall method pos receiver target args) := by
  apply (holding _ _ (twinFor hJ target)).bind
  rintro ⟨⟨receiver, args⟩, twin⟩
  cases twin with
  | none => exact pure _
  | some => exact fun s hs => .bind_get (.bind_set (.pure (hs.user hJ rfl)))

theorem retargetLinkage (done : List Linkage) (renames : Renames)
    (refs : List Linkage) : Keeps J (Program.retargetLinkage done renames refs) := by
  induction refs generalizing done renames with
  | nil => exact pure _
  | cons r rest ih =>
    rw [Program.retargetLinkage]
    apply halted.bind
    intro stopped
    split
    · exact pure _
    split
    · exact ih _ _
    · refine read fun s => ?_
      split
      · exact ih _ _
      · apply (twinFor hJ _).bind
        intro twin
        cases twin with
        | none => exact pure _
        | some =>
          exact fun s hs => .bind_get (.bind_set (ih _ _ _ (hs.user hJ rfl)))

theorem retargetFragment (pos : Pos) (func : Option Fragment.Function) (refs : List Linkage) :
    Keeps J (Program.retargetFragment pos func refs) := by
  apply (holding _ _ (retargetLinkage hJ [] [] refs)).bind
  rintro ⟨func, refs, renames⟩
  apply halted.bind
  intro stopped
  split
  · exact pure _
  split
  · exact pure _
  cases func with
  | none => exact pure _
  | some f =>
    intro s hs
    refine .bind_get ?_
    generalize f.rename renames s.program.globals = renamed
    have hglobals := hs.globals hJ (renamed.scopes.headD [])
    dsimp only
    cases renamed.fault with
    | some fault => exact .bind_set ((halt hJ fault).bind (fun _ => pure _) _ hglobals)
    | none => exact .bind_set (.pure (hglobals.user hJ rfl))

theorem retarget (method : Option MethodRef) (n : Node) : Keeps J (Program.retarget method n) := by
  unfold Program.retarget
  split
  · refine read fun s => ?_
    split
    · exact retargetCall hJ _ _ _ _ _
    · exact pure _
  · exact retargetFragment hJ _ _ _
  · exact pure _

variable {leave : Node → Walk Retargeting Node}

omit hJ in
/-- What is done to a node unless the walk has been halted. -/
theorem unlessHalted {x : α} {n : Node} {f : Node → Walk Retargeting α} (hn : Keeps J (leave n))
    (hf : ∀ n', Keeps J (f n')) :
    Keeps J (Walk.halted >>= fun stopped => if stopped then Pure.pure x else leave n >>= f) := by
  apply halted.bind
  intro stopped
  split
  · exact pure _
  · exact hn.bind hf

variable (hleave : ∀ n, Keeps J (leave n))

include hleave

theorem leaveExpr (x : Expr) : Keeps J (Program.leaveExpr leave x) := by
  apply unlessHalted (hleave _)
  intro n
  split
  · exact pure _
  · exact (halt hJ _).bind fun _ => pure _

theorem leaveStmt (x : Stmt) : Keeps J (Program.leaveStmt leave x) := by
  apply unlessHalted (hleave _)
  intro n
  split
  · exact pure _
  · exact (halt hJ _).bind fun _ => pure _

theorem leaveBody (x : Body) : Keeps J (Program.leaveBody leave x) := by
  apply unlessHalted (hleave _)
  intro n
  split
  · exact pure _
  · exact (halt hJ _).bind fun _ => pure _

omit hJ hleave in
theorem walkExprs {xs : List Expr} (h : ∀ x ∈ xs, Keeps J (Program.walkExpr leave x)) :
    Keeps J (Program.walkExprs leave xs) := by
  induction xs with
  | nil => exact pure _
  | cons x xs ih =>
    rw [List.forall_mem_cons] at h
    exact h.1.bind fun _ => (holding _ _ (ih h.2)).bind fun _ => pure _

theorem walkExpr (x : Expr) : Keeps J (Program.walkExpr leave x) := by
  induction x with
  | absent => exact pure _
  | call pos receiver target args ihReceiver ihArgs =>
    apply ihReceiver.bind
    intro receiver'
    exact (holding _ _ (walkExprs ihArgs)).bind fun _ => leaveExpr hJ hleave _
  | _ => exact (seen _).bind fun _ => leaveExpr hJ hleave _

omit hJ hleave in
theorem walkStmts {ss : List Stmt} (h : ∀ x ∈ ss, Keeps J (Program.walkStmt leave x)) :
    Keeps J (Program.walkStmts leave ss) := by
  induction ss with
  | nil => exact pure _
  | cons x ss ih =>
    rw [List.forall_mem_cons] at h
    exact h.1.bind fun _ => (holding _ _ (ih h.2)).bind fun _ => pure _

theorem walkStmt (x : Stmt) : Keeps J (Program.walkStmt leave x) := by
  induction x with
  | absent =>
    have hahead : Keeps J (modify fun s => { s with ahead := none }) := change fun _ hs => hs
    exact (halt hJ _).bind fun _ => hahead.bind fun _ => pure _
  | block pos ss ih => exact (walkStmts ih).bind fun _ => leaveStmt hJ hleave _
  | ret pos x => exact (walkExpr hJ hleave x).bind fun _ => leaveStmt hJ hleave _
  | expr pos x => exact (walkExpr hJ hleave x).bind fun _ => leaveStmt hJ hleave _
  | decl pos v init => exact (walkExpr hJ hleave init).bind fun _ => leaveStmt hJ hleave _

theorem walkBody (b : Body) : Keeps J (Program.walkBody leave b) := by
  rcases b with ⟨pos, _ | block⟩ | ⟨pos, func, refs⟩
  · exact leaveBody hJ hleave _
  · apply (walkStmts fun x _ => walkStmt hJ hleave x).bind
    intro stmts
    apply (leaveStmt hJ hleave _).bind
    intro s
    split
    · exact leaveBody hJ hleave _
    · exact (halt hJ _).bind fun _ => pure _
  · exact leaveBody hJ hleave _

end Walk.Keeps

/-- The property holds of what a walk has left. -/
def Walked.Has (J : Program → Retargeting → Option Fault → Prop) (w : Walked Retargeting) : Prop :=
  J w.program w.user w.fault

namespace Lasting

variable (hJ : Lasting J)

include hJ

/-- Before the walk over a body there is no fault. -/
theorem walkMethod {w : Walked Retargeting} (hfault : w.fault = none) (hw : w.Has J) (m : MethodRef) :
    (walkMethod (retarget (some m)) m w).Has J := by
  unfold Program.walkMethod
  split
  · exact hw
  next body _ =>
    unfold Walked.Has at hw
    rw [hfault] at hw
    exact hJ.body _ _ (Walk.Keeps.walkBody hJ (Walk.Keeps.retarget hJ (some m)) body
      { program := w.program, user := w.user, owner := m } hw)

theorem takeUp {r : Round Retargeting} (hfault : r.walked.fault = none) (hr : r.walked.Has J)
    (m : MethodRef) : (takeUp (fun m => retarget (some m)) m r).walked.Has J := by
  unfold Program.takeUp
  split
  · exact hr
  · exact hJ.walkMethod hfault hr m

theorem walkType (t : TypeRef) (fuel i : Nat) {r : Round Retargeting} (hr : r.walked.Has J) :
    (walkType (fun m => retarget (some m)) t fuel i r).walked.Has J := by
  induction fuel generalizing i r with
  -- an end of the fuel would be a fault like any other
  | zero => exact hJ.fault _ hr
  | succ fuel ih =>
    unfold Program.walkType
    split
    · exact hr
    next hrunning =>
      split
      · exact hr
      next m _ =>
        have hfault : r.walked.fault = none := by simpa using hrunning
        exact ih (i + 1) (hJ.takeUp hfault hr m)

theorem walkRounds (bound fuel : Nat) {r : Round Retargeting} (hr : r.walked.Has J) :
    (walkRounds (fun m => retarget (some m)) bound fuel r).walked.Has J := by
  induction fuel generalizing r with
  | zero => exact hJ.fault _ hr
  | succ fuel ih =>
    have hnext : (r.walked.program.declared.foldl
        (fun r t => Program.walkType (fun m => retarget (some m)) t bound 0 r) r).walked.Has J :=
      List.foldlRecOn (motive := fun r : Round Retargeting => r.walked.Has J) _ _ hr
        fun _ hr t _ => hJ.walkType t bound 0 hr
    simp only [Program.walkRounds]
    split
    · exact hnext
    · exact ih hnext

/-- What lasts through every single change lasts through the walk over all methods. -/
theorem retargetAll (p : Program) (state : Retargeting) (h : J p state none) :
    (p.retargetAll state).Has J :=
  hJ.walkRounds _ _ (r := ⟨{ program := p, user := state }, []⟩) h

end Lasting

end

/-! ## Section 4: The records -/

/-- The lists hold the methods from the index `n` on: the static ones and the others. -/
structure Recorded (n : Nat) (p : Program) (twins forwarders : List MethodRef) : Prop where
  le : n ≤ p.methods.length
  twins : twins = p.methodsSince n true
  forwarders : forwarders = p.methodsSince n false

namespace Recorded

variable {n : Nat} {p q : Program} {twins forwarders : List MethodRef}

theorem start (p : Program) : Recorded p.methods.length p [] [] := by
  refine ⟨Nat.le_refl _, ?_, ?_⟩ <;> rw [methodsSince, methodsFrom_self] <;> rfl

theorem congr (h : Recorded n p twins forwarders) (hflags : q.staticFlags = p.staticFlags) :
    Recorded n q twins forwarders := by
  refine ⟨?_, ?_, ?_⟩
  · rw [← length_staticFlags, hflags, length_staticFlags]
    exact h.le
  · rw [methodsSince_congr hflags]
    exact h.twins
  · rw [methodsSince_congr hflags]
    exact h.forwarders

theorem le_succ (h : Recorded n p twins forwarders) {flag : Bool}
    (hflags : q.staticFlags = p.staticFlags ++ [flag]) : n ≤ q.methods.length := by
  rw [← length_staticFlags, hflags, List.length_append, length_staticFlags]
  exact Nat.le_succ_of_le h.le

/-- A new static method is a twin. -/
theorem withTwin (h : Recorded n p twins forwarders)
    (hflags : q.staticFlags = p.staticFlags ++ [true]) :
    Recorded n q (twins ++ [p.next]) forwarders := by
  refine ⟨h.le_succ hflags, ?_, ?_⟩
  · rw [methodsSince_succ h.le hflags, if_pos rfl, h.twins]
  · rw [methodsSince_succ h.le hflags, if_neg (by decide), List.append_nil, h.forwarders]

/-- A new method that is not static is a forwarder. -/
theorem withForwarder (h : Recorded n p twins forwarders)
    (hflags : q.staticFlags = p.staticFlags ++ [false]) :
    Recorded n q twins (forwarders ++ [p.next]) := by
  refine ⟨h.le_succ hflags, ?_, ?_⟩
  · rw [methodsSince_succ h.le hflags, if_neg (by decide), List.append_nil, h.twins]
  · rw [methodsSince_succ h.le hflags, if_pos rfl, h.forwarders]

end Recorded

/-- Unless there is a fault, every twin that a walk makes is recorded, and it makes nothing else. -/
theorem lasting_recorded (n : Nat) (forwarders : List MethodRef) :
    Lasting fun p u fault => fault = none → Recorded n p u.twinLog.made forwarders where
  fault := by
    -- nothing is said of the records once there is a fault
    intro p u f fault _ hnone
    cases f <;> cases hnone
  user := by
    intro p u f u' hlog h hnone
    rw [hlog]
    exact h hnone
  globals := fun _ h hnone => (h hnone).congr rfl
  body := fun m b h hnone => (h hnone).congr (staticFlags_setBody m b)
  made := by
    intro p u f m twin q r hmade h hnone
    obtain ⟨rfl, hflags⟩ := requestTwin_made hmade
    exact (h hnone).withTwin hflags
  failed := by
    intro p u f m fault q r _ _ hnone
    cases f <;> cases hnone

end Program

namespace Forwarding

open Program

/-- Unless there is a fault, the state records its twins and its forwarders. -/
def IsRecorded (n : Nat) (s : Forwarding) : Prop :=
  s.fault = none → Recorded n s.program s.twinLog.made s.forwarders

variable {n : Nat} {s : Forwarding}

theorem IsRecorded.addForwarder (hs : s.IsRecorded n) (d twin : MethodRef) (t : TypeRef) :
    (s.addForwarder d twin t).IsRecorded n := by
  simp only [Forwarding.addForwarder]
  split
  · exact hs
  · intro hnone
    refine (hs hnone).withForwarder ?_
    exact staticFlags_withMethod t (x := forwarderFor s.program t d twin s.program.next) rfl

theorem IsRecorded.addForwarders (hs : s.IsRecorded n) (classes : List TypeRef) (d : MethodRef) :
    (s.addForwarders classes d).IsRecorded n := by
  have hfold : ∀ twin (s : Forwarding), s.IsRecorded n →
      (classes.foldl (fun s t => s.addForwarder d twin t) s).IsRecorded n := fun twin s hs =>
    List.foldlRecOn (motive := IsRecorded n) classes _ hs fun _ hs t _ => hs.addForwarder d twin t
  unfold Forwarding.addForwarders
  split
  · exact hs
  split
  · exact hfold _ s hs
  next hmade =>
    obtain ⟨rfl, hflags⟩ := requestTwin_made hmade
    exact hfold _ _ fun hnone => (hs hnone).withTwin hflags
  next =>
    intro hnone
    cases hnone

theorem IsRecorded.addForType (hs : s.IsRecorded n) (t : TypeRef) : (s.addForType t).IsRecorded n := by
  simp only [Forwarding.addForType]
  split
  · exact hs
  split
  · exact hs
  · exact List.foldlRecOn (motive := IsRecorded n) _ _ hs fun _ hs d _ => hs.addForwarders _ d

theorem run_isRecorded (p : Program) : (run p {}).IsRecorded p.methods.length :=
  List.foldlRecOn (motive := IsRecorded p.methods.length) p.declared _ (fun _ => Recorded.start p)
    fun _ hs t _ => hs.addForType t

end Forwarding

namespace Program

/-- The twins that a successful run returns are the new static methods, and the forwarders are the
    other new methods. -/
theorem lower_recorded {p q : Program} {cache cache' : NameCache} {summary : Summary}
    (hrun : p.lower cache = ⟨q, cache', .ok summary⟩) :
    Recorded p.methods.length q summary.twins summary.forwarders := by
  obtain ⟨hforwarded, _, hwalked, rfl, -, rfl, rfl⟩ := lower_eq_ok hrun
  exact (lasting_recorded p.methods.length (Forwarding.run p {}).forwarders).retargetAll
    (Forwarding.run p {}).program { twinLog := (Forwarding.run p {}).twinLog, cache := cache }
    (fun _ => Forwarding.run_isRecorded p hforwarded) hwalked

end Program

end DefaultLowering
