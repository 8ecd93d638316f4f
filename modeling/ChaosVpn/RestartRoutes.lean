import ChaosVpn.Whitelist
import ChaosVpn.WorkerInvariant

/-! The routes in the kernel while parent, worker and tincd run. The parent writes tinc-up
and tinc-down before it asks for a restart, tincd runs tinc-up when it starts, and the
worker runs tinc-down. A script runs at once and does what its uncommented route commands
say. -/

namespace ChaosVpn.RestartRoutes
open CStrings Libc AddrMask Settings PeerParser RouteScript RouteLines RouteSequence Whitelist
open Runs Worker

abbrev Route := Family × Bytes

/-- The routes of the commands that are no comments. -/
def scriptRoutes (libc : CLibrary) (config : Config) (up : Bool) (peers : List PeerConfig) :
    List Route :=
  ((config.mergeroutesSupernet.filter fun net => hasRoutes config up net.addrFamily).map
    fun net => (net.addrFamily, addrmaskToString libc net)) ++
  if config.useDynamicRoutes then []
  else ((peerRoutes libc config up peers).filter fun route => route.mark.isNone).map
    fun route => (route.family, route.subnet)

/-! The scripts have these routes -/

section Written
variable {libc : CLibrary} {config : Config} {up : Bool}

/-- A piece of a script in lines, of which those that are commands set these routes. -/
def WritesRoutes (libc : CLibrary) (config : Config) (up : Bool) (text : Option Bytes)
    (routes : List Route) : Prop :=
  ∀ b, text = some b → ∃ lines : List Line, b = lines.flatMap Line.written ∧
    routes.map (fun route => concatF libc ((routecmd config up route.1).getD []) route.2) =
      (lines.filterMap Line.command).map some

theorem writesRoutes_nil : WritesRoutes libc config up (some []) [] :=
  fun _ h => ⟨[], (Option.some.inj h).symm, rfl⟩

theorem WritesRoutes.cons {text : Option Bytes} {texts : List (Option Bytes)}
    {routes rest : List Route} (h : WritesRoutes libc config up text routes)
    (hrest : WritesRoutes libc config up (concatAll texts) rest) :
    WritesRoutes libc config up (concatAll (text :: texts)) (routes ++ rest) := by
  intro b hb
  obtain ⟨first, last, hfirst, hlast, rfl⟩ := concatAll_cons_eq_some.mp hb
  obtain ⟨lines, rfl, hlines⟩ := h first hfirst
  obtain ⟨lines', rfl, hlines'⟩ := hrest last hlast
  exact ⟨lines ++ lines', by rw [List.flatMap_append],
    by rw [List.map_append, hlines, hlines', List.filterMap_append, List.map_append]⟩

/-- What is written last sets no routes. -/
theorem WritesRoutes.last {text final : Option Bytes} {routes : List Route}
    (h : WritesRoutes libc config up text routes)
    (hfinal : WritesRoutes libc config up final []) :
    WritesRoutes libc config up (concatAll [text, final]) routes := by
  have hnil : WritesRoutes libc config up (concatAll []) [] := writesRoutes_nil
  simpa using h.cons (hfinal.cons hnil)

theorem writesRoutes_map {α : Type} {write : α → Option Bytes} {routes : α → List Route}
    (h : ∀ item, WritesRoutes libc config up (write item) (routes item)) (items : List α) :
    WritesRoutes libc config up (concatAll (items.map write)) (items.flatMap routes) := by
  induction items with
  | nil => exact writesRoutes_nil
  | cons item items ih => exact (h item).cons ih

theorem writesRoutes_comment (text : Bytes) :
    WritesRoutes libc config up (some (Line.comment text).written) [] :=
  fun _ h => ⟨[.comment text], by simpa using (Option.some.inj h).symm, rfl⟩

theorem writesRoutes_supernet (net : AddrInfo) :
    WritesRoutes libc config up (supernetLine libc config up net)
      (if hasRoutes config up net.addrFamily then
        [(net.addrFamily, addrmaskToString libc net)] else []) := by
  unfold supernetLine
  split
  · intro b hb
    obtain ⟨command, hcommand, rfl⟩ := Option.map_eq_some_iff.mp hb
    exact ⟨[.route command], by simp [Line.written, ascii], by simpa using hcommand⟩
  · exact writesRoutes_nil

theorem writesRoutes_supernets :
    WritesRoutes libc config up (supernetLines libc config up)
      ((config.mergeroutesSupernet.filter fun net => hasRoutes config up net.addrFamily).map
        fun net => (net.addrFamily, addrmaskToString libc net)) := by
  have hhead : WritesRoutes libc config up (some (comment ++ ascii "Mergeroute Supernets\n")) [] :=
    writesRoutes_comment (ascii "Mergeroute Supernets")
  have hblank : WritesRoutes libc config up (some (ascii "\n")) [] := fun _ h =>
    ⟨[.blank], (Option.some.inj h).symm, rfl⟩
  unfold supernetLines
  split
  · rename_i hempty
    rw [hempty]
    exact writesRoutes_nil
  · refine hhead.cons (WritesRoutes.last ?_ hblank)
    rw [← flatMap_kept]
    exact writesRoutes_map writesRoutes_supernet _

theorem writesRoutes_peerRoute (route : PeerRoute) :
    WritesRoutes libc config up (route.text libc config up)
      (if route.mark.isNone then [(route.family, route.subnet)] else []) := by
  intro b hb
  obtain ⟨family, subnet, mark⟩ := route
  cases hcommand : concatF libc ((routecmd config up family).getD []) subnet with
  | none =>
    rw [PeerRoute.text] at hb
    simp [concatAll, hcommand] at hb
  | some command =>
    cases mark with
    | none =>
      refine ⟨[.route command], ?_, by simpa using hcommand⟩
      simpa [PeerRoute.text, concatAll, hcommand, Line.written, ascii] using hb.symm
    | some reason =>
      refine ⟨[.comment (reason ++ command)], ?_, rfl⟩
      simpa [PeerRoute.text, concatAll, hcommand, Line.written, ascii] using hb.symm

theorem writesRoutes_nodeComment (peer : PeerConfig) :
    WritesRoutes libc config up (nodeComment libc config peer) [] := by
  have hlabels : percent ∉ ascii "excluded node: " ∧ percent ∉ ascii "node: " := by decide
  have hexcluded : concatF libc (comment ++ ascii "excluded node: %s\n") peer.name = some _ :=
    concatF_comment libc peer.name hlabels.1
  have hnode : concatF libc (comment ++ ascii "node: %s\n") peer.name = some _ :=
    concatF_comment libc peer.name hlabels.2
  unfold nodeComment
  split
  · exact writesRoutes_nil
  · split
    · rw [hexcluded]
      exact writesRoutes_comment _
    · rw [hnode]
      exact writesRoutes_comment _

theorem writesRoutes_nodeLines (peer : PeerConfig) :
    WritesRoutes libc config up (nodeLines libc config up peer)
      (((nodeRoutes libc config up peer).filter fun route => route.mark.isNone).map
        fun route => (route.family, route.subnet)) := by
  rw [nodeLines_eq_routes, ← flatMap_kept]
  exact (writesRoutes_nodeComment peer).cons (writesRoutes_map writesRoutes_peerRoute _)

/-- Between head and foot, a script is these routes in this order and comments. -/
theorem tincWriteUpdown_routes {peers : List PeerConfig} {file : Written}
    (h : tincWriteUpdown libc config peers up = some file) :
    ∃ head, scriptHead libc config up = some head ∧ ∃ lines : List Line,
      file.contents = head ++ lines.flatMap Line.written ++ scriptFoot config up ∧
        (scriptRoutes libc config up peers).map
            (fun route => concatF libc ((routecmd config up route.1).getD []) route.2) =
          (lines.filterMap Line.command).map some := by
  have hpeers : WritesRoutes libc config up
      (if config.useDynamicRoutes then some []
        else concatAll (peers.map (nodeLines libc config up)))
      (if config.useDynamicRoutes then []
        else ((peerRoutes libc config up peers).filter fun route => route.mark.isNone).map
          fun route => (route.family, route.subnet)) := by
    split
    · exact writesRoutes_nil
    · rw [peerRoutes, List.filter_flatMap, List.map_flatMap]
      exact writesRoutes_map writesRoutes_nodeLines peers
  obtain ⟨contents, hcontents, rfl⟩ := Option.map_eq_some_iff.mp h
  obtain ⟨head, _, hhead, hbody, rfl⟩ := concatAll_cons_eq_some.mp hcontents
  obtain ⟨supernets, _, hsupernets, hrest, rfl⟩ := concatAll_cons_eq_some.mp hbody
  obtain ⟨nodes, _, hnodes, hlast, rfl⟩ := concatAll_cons_eq_some.mp hrest
  obtain ⟨_, _, hfoot, hend, rfl⟩ := concatAll_cons_eq_some.mp hlast
  cases hfoot
  cases hend
  obtain ⟨lines, rfl, hlines⟩ := writesRoutes_supernets supernets hsupernets
  obtain ⟨lines', rfl, hlines'⟩ := hpeers nodes hnodes
  refine ⟨head, hhead, lines ++ lines', ?_, ?_⟩
  · simp [List.flatMap_append]
  · rw [scriptRoutes, List.map_append, hlines, hlines', List.filterMap_append, List.map_append]

end Written

/-- The scripts are known by the peer lists that they were written for. -/
structure System where
  worker : State
  tincUp : Option (List PeerConfig)
  tincDown : Option (List PeerConfig)
  table : List Route

inductive SystemAct
  | worker (act : Act)
  | tincWriteUpdown (peers : List PeerConfig) (up : Bool)
  | tincUp (pid : Nat)

structure Report where
  events : List Event
  added : List Route
  deleted : List Route

def fileRoutes (libc : CLibrary) (config : Config) (up : Bool) :
    Option (List PeerConfig) → List Route
  | none => []
  | some peers => scriptRoutes libc config up peers

def runsTincd (ctx : Context) (pid : Nat) : Bool :=
  ctx.children.any fun c => c.pid == pid && c.tincd && c.life == .running

def System.written (st : System) (peers : List PeerConfig) (up : Bool) : System :=
  if up then { st with tincUp := some peers } else { st with tincDown := some peers }

def systemStep (setup : Setup) (libc : CLibrary) (config : Config) (st : System) :
    SystemAct → Option (Report × System)
  | .worker act =>
    (step setup st.worker act).map fun (events, worker) =>
      let deleted := if .script ∈ events then fileRoutes libc config false st.tincDown else []
      (⟨events, [], deleted⟩, { st with worker, table := st.table.filter (· ∉ deleted) })
  | .tincWriteUpdown peers up =>
    (tincWriteUpdown libc config peers up).map fun _ => (⟨[], [], []⟩, st.written peers up)
  | .tincUp pid =>
    if runsTincd st.worker.toContext pid then
      let added := fileRoutes libc config true st.tincUp
      some (⟨[], added, []⟩, { st with table := st.table ++ added })
    else none

/-- The system as main starts it, with the scripts that are there from before. -/
def startSystem (tincUp tincDown : Option (List PeerConfig)) : System where
  worker := startState
  tincUp := tincUp
  tincDown := tincDown
  table := []

abbrev Call := Runs.Call System SystemAct Report

abbrev Run (setup : Setup) (libc : CLibrary) (config : Config)
    (tincUp tincDown : Option (List PeerConfig)) : List Call → System → Prop :=
  Runs.Run (systemStep setup libc config) (startSystem tincUp tincDown)

def forks : Event → Bool
  | .forked _ => true
  | _ => false

def Starts (c : Call) : Prop := ∃ e ∈ c.out.events, forks e = true

instance (c : Call) : Decidable (Starts c) := inferInstanceAs (Decidable (∃ e ∈ _, _))

/-- What a tinc-up adds, a tinc-down deletes before the next tincd is started. -/
def RoutesDeleted (t : List Call) : Prop :=
  ∀ before u mid f after, t = before ++ u :: (mid ++ f :: after) → Starts f →
    (∀ c ∈ mid, ¬ Starts c) → ∀ route ∈ u.out.added, ∃ d ∈ mid, route ∈ d.out.deleted

/-! When that is so -/

/-- The next thing to do is the tinc-down of sigchild. -/
def sigchildDown (st : State) : Bool :=
  match st.stack with
  | ⟨.sigchild, .tincInvokeIfdown :: _⟩ :: _ => true
  | _ => false

/-- There are commands that delete routes of the family, and the route goes to a supernet
or to a network of the peers. -/
def StillRouted (libc : CLibrary) (config : Config) (peers : List PeerConfig) (route : Route) :
    Prop :=
  hasRoutes config false route.1 = true ∧
    ((∃ net ∈ config.mergeroutesSupernet,
        net.addrFamily = route.1 ∧ addrmaskToString libc net = route.2) ∨
      ∃ peer ∈ routedPeers config peers, ∃ text ∈ networks peer route.1,
        (strSplitAt hash text).1 = route.2 ∧ Kept libc config route.2)

instance (libc : CLibrary) (config : Config) (peers : List PeerConfig) (route : Route) :
    Decidable (StillRouted libc config peers route) :=
  inferInstanceAs (Decidable (_ ∧ (_ ∨ _)))

/-- Whether system() starts the script, where it is called. -/
def SystemAct.scriptStarts : SystemAct → Option Bool
  | .worker (.run (.pid _)) => some true
  | .worker (.run _) => some false
  | _ => none

/-- Where sigchild calls tinc-down the script is started, and all routes that are set are
still routes of the peers that it was written for. -/
def NetworksKept (libc : CLibrary) (config : Config) (c : Call) : Prop :=
  sigchildDown c.pre.worker = true → ∀ starts ∈ c.input.scriptStarts, starts = true ∧
    ∀ route ∈ c.pre.table, ∃ peers ∈ c.pre.tincDown, StillRouted libc config peers route

instance (libc : CLibrary) (config : Config) (c : Call) :
    Decidable (NetworksKept libc config c) :=
  inferInstanceAs (Decidable (_ → ∀ starts ∈ c.input.scriptStarts, _))

variable {setup : Setup} {libc : CLibrary} {config : Config} {st st' : System} {act : SystemAct}
  {out : Report} {t : List Call} {up down : Option (List PeerConfig)}

/-! What a step can do -/

inductive SystemStep (setup : Setup) (libc : CLibrary) (config : Config) (st : System) :
    SystemAct → Report → System → Prop
  | worker {act : Act} {events : List Event} {worker : State} {deleted : List Route} :
      step setup st.worker act = some (events, worker) →
      deleted = (if .script ∈ events then fileRoutes libc config false st.tincDown else []) →
      SystemStep setup libc config st (.worker act) ⟨events, [], deleted⟩
        { st with worker, table := st.table.filter (· ∉ deleted) }
  | written {peers : List PeerConfig} {up : Bool} :
      SystemStep setup libc config st (.tincWriteUpdown peers up) ⟨[], [], []⟩
        (st.written peers up)
  | tincUp {pid : Nat} : runsTincd st.worker.toContext pid = true →
      SystemStep setup libc config st (.tincUp pid)
        ⟨[], fileRoutes libc config true st.tincUp, []⟩
        { st with table := st.table ++ fileRoutes libc config true st.tincUp }

theorem systemStep_cases (h : systemStep setup libc config st act = some (out, st')) :
    SystemStep setup libc config st act out st' := by
  cases act with
  | worker act =>
    obtain ⟨⟨events, worker⟩, hstep, heq⟩ := Option.map_eq_some_iff.mp h
    obtain ⟨rfl, rfl⟩ := Prod.mk.inj heq
    exact .worker hstep rfl
  | tincWriteUpdown peers up =>
    obtain ⟨_, -, heq⟩ := Option.map_eq_some_iff.mp h
    obtain ⟨rfl, rfl⟩ := Prod.mk.inj heq
    exact .written
  | tincUp pid =>
    simp only [systemStep] at h
    split at h
    · rename_i hruns
      obtain ⟨rfl, rfl⟩ := Prod.mk.inj (Option.some.inj h)
      exact .tincUp hruns
    · cases h

@[simp] theorem written_worker (peers : List PeerConfig) (up : Bool) :
    (st.written peers up).worker = st.worker := by
  cases up <;> rfl

@[simp] theorem written_table (peers : List PeerConfig) (up : Bool) :
    (st.written peers up).table = st.table := by
  cases up <;> rfl

/-- The worker of the system runs as it does by itself. -/
theorem worker_run (run : Run setup libc config up down t st) :
    ∃ calls, Worker.Run setup calls st.worker := by
  refine run.invariant (fun _ st => ∃ calls, Worker.Run setup calls st.worker) ⟨[], .nil⟩ ?_
  intro t st act out st' _ ih hstep
  obtain ⟨calls, hrun⟩ := ih
  cases systemStep_cases hstep with
  | worker hworker => exact ⟨_, hrun.snoc hworker⟩
  | written => exact ⟨calls, by simpa using hrun⟩
  | tincUp => exact ⟨calls, hrun⟩

/-! What a tinc-up adds stays until a tinc-down deletes it -/

theorem added_remains (run : Run setup libc config up down t st) :
    ∀ before u mid, t = before ++ u :: mid → ∀ route ∈ u.out.added,
      route ∈ st.table ∨ ∃ d ∈ mid, route ∈ d.out.deleted := by
  refine run.invariant (fun t st => ∀ before u mid, t = before ++ u :: mid →
    ∀ route ∈ u.out.added, route ∈ st.table ∨ ∃ d ∈ mid, route ∈ d.out.deleted) (by simp) ?_
  intro t st act out st' _ ih hstep before u mid ht route hroute
  rcases snoc_split ht with ⟨-, rfl, rfl⟩ | ⟨mid', ht', rfl⟩
  · left
    cases systemStep_cases hstep with
    | worker | written => cases hroute
    | tincUp => exact List.mem_append_right _ hroute
  · rcases ih before u mid' ht' route hroute with hset | ⟨d, hd, hdeleted⟩
    · cases systemStep_cases hstep with
      | @worker act events worker deleted =>
        by_cases hdeleted : route ∈ deleted
        · exact .inr ⟨_, List.mem_append_right mid' List.mem_cons_self, hdeleted⟩
        · exact .inl (List.mem_filter.mpr ⟨hset, by simpa using hdeleted⟩)
      | written => exact .inl (by simpa using hset)
      | tincUp => exact .inl (List.mem_append_left _ hset)
    · exact .inr ⟨d, List.mem_append_left _ hd, hdeleted⟩

/-! The routes that a tinc-down deletes -/

theorem mem_scriptRoutes {peers : List PeerConfig} {route : Route}
    (hstatic : config.useDynamicRoutes = false) (h : StillRouted libc config peers route) :
    route ∈ scriptRoutes libc config false peers := by
  obtain ⟨hroutes, hrouted⟩ := h
  obtain ⟨family, subnet⟩ := route
  rw [scriptRoutes, hstatic, if_neg Bool.false_ne_true, List.mem_append]
  rcases hrouted with ⟨net, hnet, rfl, rfl⟩ | ⟨peer, hpeer, text, htext, rfl, hkept⟩
  · exact .inl (List.mem_map.mpr ⟨net, List.mem_filter.mpr ⟨hnet, hroutes⟩, rfl⟩)
  · obtain ⟨hpeer, hself, hexcluded⟩ := mem_routedPeers.mp hpeer
    have hfamily : (⟨family, (strSplitAt hash text).1, none⟩ : PeerRoute) ∈
        familyRoutes libc config false peer family :=
      mem_familyRoutes.mpr ⟨hroutes, text, htext, by rw [routeMark_eq_none_iff.mpr hkept]⟩
    have hroute : (⟨family, (strSplitAt hash text).1, none⟩ : PeerRoute) ∈
        peerRoutes libc config false peers :=
      List.mem_flatMap.mpr ⟨peer, hpeer, mem_nodeRoutes.mpr ⟨hself, hexcluded, family, hfamily⟩⟩
    exact .inr (List.mem_map.mpr ⟨_, List.mem_filter.mpr ⟨hroute, rfl⟩, rfl⟩)

theorem script_of_pid {worker worker' : State} {events : List Event} {pid : Nat}
    {routine : Routine} {rest : List Op} {below : List Activation}
    (hstack : worker.stack = ⟨routine, .tincInvokeIfdown :: rest⟩ :: below)
    (h : step setup worker (.run (.pid pid)) = some (events, worker')) : .script ∈ events := by
  unfold step at h
  split at h
  · cases h
  · simp only [runTop, hstack, perform] at h
    split at h
    · cases h
      simp
    · cases h

/-! No route is set where a tincd is about to be started -/

/-- The tincd is dead and sigchild has still to call tinc-down. -/
def AwaitsDown (stack : List Activation) : Prop :=
  ∃ fatal, (⟨.sigchild, [.tincInvokeIfdown, .restart fatal]⟩ : Activation) ∈ stack

structure Swept (st : System) : Prop where
  unstarted : st.worker.phase = .fresh ∨ st.worker.phase = .signalled → st.table = []
  starting : 0 < pendingStarts st.worker.stack → AwaitsDown st.worker.stack ∨ st.table = []

theorem pendingStarts_pos_of_awaitsDown {stack : List Activation} (h : AwaitsDown stack) :
    0 < pendingStarts stack := by
  obtain ⟨fatal, hmem⟩ := h
  exact List.countP_pos_iff.mpr ⟨.restart fatal, List.mem_flatMap.mpr ⟨_, hmem, by simp⟩, rfl⟩

theorem tincds_pos_of_runsTincd {ctx : Context} {pid : Nat} (h : runsTincd ctx pid = true) :
    0 < ctx.tincds := by
  obtain ⟨c, hc, hholds⟩ := List.any_eq_true.mp h
  simp only [Bool.and_eq_true] at hholds
  exact List.countP_pos_iff.mpr ⟨c, hc, hholds.1.2⟩

/-- What sigchild does next after it has waited. -/
theorem effect_waitpid {ctx ctx' : Context} {events : List Event} {ops : List Op}
    (h : Effect setup ctx .waitpid events ctx' ops) :
    ops = [] ∨ ∃ fatal, ops = [.tincInvokeIfdown, .restart fatal] := by
  cases h with
  | @reaped child fatal => exact .inr ⟨fatal, rfl⟩
  | unknown | noChild => exact .inl rfl
  | failed hfailed => rcases hfailed with h | h <;> cases h

theorem fork_of_forked {ctx ctx' : Context} {op : Op} {events : List Event} {ops : List Op}
    {pid : Nat} (h : Effect setup ctx op events ctx' ops) (hforked : .forked pid ∈ events) :
    op = .fork := by
  cases h with
  | fork => rfl
  | _ => simp at hforked

/-- No start is left to be made without the tinc-down in front of it. -/
theorem swept_run {events : List Event} {answer : Answer} {routine : Routine} {op : Op}
    {rest ops : List Op} {below : List Activation} {ctx : Context} {deleted : List Route}
    (hstatic : config.useDynamicRoutes = false) (hsound : Sound st.worker) (h : Swept st)
    (hstep : step setup st.worker (.run answer) =
      some (events, ⟨ctx, st.worker.phase, ⟨routine, ops ++ rest⟩ :: below⟩))
    (hstack : st.worker.stack = ⟨routine, op :: rest⟩ :: below)
    (heffect : Effect setup st.worker.toContext op events ctx ops)
    (hdeleted : deleted =
      if .script ∈ events then fileRoutes libc config false st.tincDown else [])
    (hcond : NetworksKept libc config ⟨st, .worker (.run answer), out, st'⟩)
    (hstarts : 0 < pendingStarts (⟨routine, ops ++ rest⟩ :: below)) :
    AwaitsDown (⟨routine, ops ++ rest⟩ :: below) ∨ st.table.filter (· ∉ deleted) = [] := by
  have htop : (⟨routine, op :: rest⟩ : Activation) ∈ st.worker.stack := hstack ▸ List.mem_cons_self
  rw [pendingStarts_cons, List.countP_append] at hstarts
  by_cases hbefore : 0 < pendingStarts st.worker.stack
  · rcases h.starting hbefore with ⟨fatal, hmem⟩ | htable
    · rw [hstack] at hmem
      rcases List.mem_cons.mp hmem with heq | hbelow
      · cases heq
        have hdown : sigchildDown st.worker = true := by rw [sigchildDown, hstack]
        right
        cases answer with
        | done | failed => exact absurd (hcond hdown false rfl).1 Bool.false_ne_true
        | pid pid =>
          rw [if_pos (script_of_pid hstack hstep)] at hdeleted
          rw [List.filter_eq_nil_iff]
          intro route hroute
          obtain ⟨peers, hpeers, hrouted⟩ := (hcond hdown true rfl).2 route hroute
          have hmem : route ∈ deleted := by
            rw [hdeleted, Option.mem_def.mp hpeers]
            exact mem_scriptRoutes hstatic hrouted
          simpa using hmem
      · exact .inl ⟨fatal, List.mem_cons_of_mem _ hbelow⟩
    · exact .inr (by rw [htable]; rfl)
  · rw [hstack, pendingStarts_cons] at hbefore
    have hop : op.starts = false := by
      cases hop : op.starts with
      | false => rfl
      | true =>
        rw [List.countP_cons_of_pos hop] at hbefore
        omega
    rw [List.countP_cons_of_neg (by simp [hop])] at hbefore
    rcases heffect.starts hop with hnone | ⟨pid, rfl, -, -⟩
    · omega
    · obtain ⟨-, hrest⟩ := List.cons.inj (hsound.waits _ htop List.mem_cons_self)
      have hroutine : routine = .sigchild := hsound.waiter htop List.mem_cons_self
      subst hrest hroutine
      rcases effect_waitpid heffect with rfl | ⟨fatal, rfl⟩
      · simp only [List.countP_nil] at hstarts hbefore
        omega
      · exact .inl ⟨fatal, List.mem_cons_self⟩

theorem swept_command {worker : State} {c : Command} (h : Swept st)
    (hstep : step setup st.worker (.command c) = some ([], worker)) :
    (worker.phase = .fresh ∨ worker.phase = .signalled → st.table = []) ∧
      (0 < pendingStarts worker.stack → st.table = []) := by
  cases (step_cases hstep).2 with
  | @command _ phase _ hphase =>
    have hnext : st.worker.phase.next c = some phase := hphase
    cases c with
    | signalOldTincd | startTincd =>
      have hunstarted : st.table = [] := by
        refine h.unstarted ?_
        cases hp : st.worker.phase <;> simp_all [Phase.next]
      exact ⟨fun _ => hunstarted, fun _ => hunstarted⟩
    | restartTincd | stop | readFailed =>
      refine ⟨fun hearly => ?_, fun hstarts => ?_⟩
      · have hlater : phase = .started ∨ phase = .stopped := by
          cases hp : st.worker.phase <;> simp_all [Phase.next]
        rcases hlater with rfl | rfl <;> simp at hearly
      · simp [pendingStarts, commandOps, sigtermOps, Op.starts] at hstarts

theorem swept_worker {act : Act} {events : List Event} {worker : State} {deleted : List Route}
    (hstatic : config.useDynamicRoutes = false) (hsound : Sound st.worker) (h : Swept st)
    (hstep : step setup st.worker act = some (events, worker))
    (hdeleted : deleted =
      if .script ∈ events then fileRoutes libc config false st.tincDown else [])
    (hcond : NetworksKept libc config ⟨st, .worker act, out, st'⟩) :
    Swept { st with worker, table := st.table.filter (· ∉ deleted) } := by
  have hgone : st.table = [] → st.table.filter (· ∉ deleted) = [] := fun htable => by
    rw [htable]
    rfl
  have hkept {stack : List Activation}
      (hcount : pendingStarts stack = pendingStarts st.worker.stack)
      (hawaits : AwaitsDown st.worker.stack → AwaitsDown stack)
      (hstarts : 0 < pendingStarts stack) :
      AwaitsDown stack ∨ st.table.filter (· ∉ deleted) = [] :=
    (h.starting (hcount ▸ hstarts)).imp hawaits hgone
  cases (step_cases hstep).2 with
  | command =>
    obtain ⟨hearly, hstarts⟩ := swept_command h hstep
    exact ⟨fun hphase => hgone (hearly hphase), fun hpos => .inr (hgone (hstarts hpos))⟩
  | run hstack heffect =>
    exact ⟨fun hphase => hgone (h.unstarted hphase),
      swept_run hstatic hsound h hstep hstack heffect hdeleted hcond⟩
  | @leave _ routine below hstack =>
    refine ⟨fun hphase => hgone (h.unstarted hphase), hkept ?_ fun hawaits => ?_⟩
    · rw [hstack, pendingStarts_cons]
      simp
    · obtain ⟨fatal, hmem⟩ := hawaits
      rw [hstack] at hmem
      rcases List.mem_cons.mp hmem with heq | hbelow
      · cases heq
      · exact ⟨fatal, hbelow⟩
  | exits | notify => exact ⟨fun hphase => hgone (h.unstarted hphase), hkept rfl id⟩
  | sigchld =>
    refine ⟨fun hphase => hgone (h.unstarted hphase), hkept ?_ fun hawaits => ?_⟩
    · rw [pendingStarts_cons]
      simp [Op.starts]
    · obtain ⟨fatal, hmem⟩ := hawaits
      exact ⟨fatal, List.mem_cons_of_mem _ hmem⟩
  | deliver =>
    refine ⟨fun hphase => hgone (h.unstarted hphase), hkept ?_ fun hawaits => ?_⟩
    · rw [pendingStarts_cons]
      simp [sigtermOps, Op.starts]
    · obtain ⟨fatal, hmem⟩ := hawaits
      exact ⟨fatal, List.mem_cons_of_mem _ hmem⟩

theorem swept_step (hstatic : config.useDynamicRoutes = false) (hsound : Sound st.worker)
    (h : Swept st) (hstep : systemStep setup libc config st act = some (out, st'))
    (hcond : NetworksKept libc config ⟨st, act, out, st'⟩) : Swept st' := by
  cases systemStep_cases hstep with
  | worker hworker hdeleted => exact swept_worker hstatic hsound h hworker hdeleted hcond
  | written => exact ⟨by simpa using h.unstarted, by simpa using h.starting⟩
  | tincUp hruns =>
    have htincds := tincds_pos_of_runsTincd hruns
    have hsingle := hsound.single
    refine ⟨fun hphase => ?_, fun hstarts => ?_⟩
    · have hidle := (hsound.unstarted hphase).idle
      omega
    · have hnone : ¬ 0 < pendingStarts st.worker.stack := by omega
      exact absurd hstarts hnone

theorem swept (hstatic : config.useDynamicRoutes = false)
    (run : Run setup libc config up down t st) :
    (∀ c ∈ t, NetworksKept libc config c) → Swept st := by
  refine run.invariant (fun t st => (∀ c ∈ t, NetworksKept libc config c) → Swept st)
    (fun _ => ⟨fun _ => rfl, fun _ => .inr rfl⟩) ?_
  intro t st act out st' hrun ih hstep hcond
  obtain ⟨_, hworker⟩ := worker_run hrun
  exact swept_step hstatic (sound hworker) (ih fun c hc => hcond c (by simp [hc])) hstep
    (hcond _ (by simp))

/-- No route is set where a tincd is forked. -/
theorem table_of_forked {pid : Nat} (hsound : Sound st.worker) (h : Swept st)
    (hstep : systemStep setup libc config st act = some (out, st'))
    (hforked : .forked pid ∈ out.events) : st.table = [] := by
  cases systemStep_cases hstep with
  | written | tincUp => cases hforked
  | worker hworker =>
    cases (step_cases hworker).2 with
    | @run _ routine op rest ops below _ ctx hstack heffect =>
      obtain rfl := fork_of_forked heffect hforked
      have hsingle := hsound.single
      rw [hstack, pendingStarts_cons, List.countP_cons_of_pos (by rfl)] at hsingle
      have hpending : 0 < pendingStarts st.worker.stack := by
        rw [hstack, pendingStarts_cons, List.countP_cons_of_pos (by rfl)]
        omega
      rcases h.starting hpending with ⟨fatal, hmem⟩ | htable
      · rw [hstack] at hmem
        rcases List.mem_cons.mp hmem with heq | hbelow
        · cases heq
        · have hpos := pendingStarts_pos_of_awaitsDown ⟨fatal, hbelow⟩
          omega
      · exact htable
    | _ => cases hforked

/-- While the peers keep the networks that are routed, and tinc-down can be run, every route
is deleted before the next tincd is started. -/
theorem routes_deleted (setup : Setup) (libc : CLibrary) (config : Config)
    (up down : Option (List PeerConfig)) (hstatic : config.useDynamicRoutes = false)
    {t : List Call} {st : System} (run : Run setup libc config up down t st)
    (hcond : ∀ c ∈ t, NetworksKept libc config c) : RoutesDeleted t := by
  intro before u mid f after ht hstarts _ route hroute
  obtain ⟨hrun, hstep⟩ := run.split (show t = (before ++ u :: mid) ++ f :: after by simp [ht])
  obtain ⟨_, hworker⟩ := worker_run hrun
  have hswept : Swept f.pre := swept hstatic hrun fun c hc => hcond c (by
    rw [ht]
    simp only [List.mem_append, List.mem_cons] at hc ⊢
    tauto)
  obtain ⟨e, hforked, hfork⟩ := hstarts
  have htable : f.pre.table = [] := by
    cases e with
    | forked pid => exact table_of_forked (sound hworker) hswept hstep hforked
    | _ => cases hfork
  rcases added_remains hrun before u mid rfl route hroute with hset | hdeleted
  · rw [htable] at hset
    cases hset
  · exact hdeleted

/-! A text replaces another one while the tincd 100 runs -/

def routedConfig : Config where
  peerid := ascii "office"
  networkname := ascii "vpn"
  basePath := ascii "/etc/tinc/vpn"
  vpnIp := some (ascii "172.31.0.1")
  routeadd := some (ascii "ip route add %s")
  routedel := some (ascii "ip route del %s")

def peersOf (networks : Bytes) : List PeerConfig :=
  parserParseConfig plainLibrary (ascii "[office]\n[lab]\n" ++ networks)

def labNetwork : Bytes := ascii "network=10.1.0.0/16\n"

def updateActs (old new : List PeerConfig) : List SystemAct :=
  [.tincWriteUpdown old true, .tincWriteUpdown old false] ++
  sampleStart.map .worker ++
  [.tincUp 100, .tincWriteUpdown new true, .tincWriteUpdown new false] ++
  ((sampleRestart.drop sampleStart.length).take 13).map .worker

def updated (old new : List PeerConfig) : List Call × System :=
  (execute (systemStep sampleSetup plainLibrary routedConfig) (startSystem none none)
    (updateActs old new)).getD ([], startSystem none none)

theorem updated_run {old new : List PeerConfig}
    (h : (execute (systemStep sampleSetup plainLibrary routedConfig) (startSystem none none)
      (updateActs old new)).isSome = true) :
    Run sampleSetup plainLibrary routedConfig none none (updated old new).1
      (updated old new).2 := by
  obtain ⟨⟨t, st⟩, heq⟩ := Option.isSome_iff_exists.mp h
  rw [updated, heq]
  exact run_of_execute heq

theorem routes_deleted_lab :
    RoutesDeleted (updated (peersOf labNetwork)
      (peersOf (labNetwork ++ ascii "network=10.2.0.0/16\n"))).1 :=
  routes_deleted sampleSetup plainLibrary routedConfig none none rfl
    (updated_run (by decide)) (by decide)

/-- The new text has no networks, and neither does the tinc-down that runs for the old
tincd. -/
theorem update_leaves_route :
    sampleSetup.runIfdown = true ∧ routedConfig.useDynamicRoutes = false ∧
      Run sampleSetup plainLibrary routedConfig none none
        (updated (peersOf labNetwork) (peersOf [])).1
        (updated (peersOf labNetwork) (peersOf [])).2 ∧
      ¬ RoutesDeleted (updated (peersOf labNetwork) (peersOf [])).1 := by
  refine ⟨rfl, rfl, updated_run (by decide), fun hdeleted => ?_⟩
  generalize htrace : (updated (peersOf labNetwork) (peersOf [])).1 = t at hdeleted
  have hlength : t.length = 25 := by
    rw [← htrace]
    decide
  have hmid : (∀ c ∈ (t.drop 10).take 14, ¬ Starts c) ∧
      ∀ d ∈ (t.drop 10).take 14, (Family.inet, ascii "10.1.0.0/16") ∉ d.out.deleted := by
    rw [← htrace]
    decide
  have hup : ∃ u ∈ t[9]?, (Family.inet, ascii "10.1.0.0/16") ∈ u.out.added := by
    rw [← htrace]
    decide
  have hfork : ∃ f ∈ t[24]?, Starts f := by
    rw [← htrace]
    decide
  obtain ⟨u, hu, hadded⟩ := hup
  obtain ⟨f, hf, hstarts⟩ := hfork
  have hsplit : t = t.take 9 ++ u :: ((t.drop 10).take 14 ++ f :: []) := by
    obtain ⟨hlt, rfl⟩ := List.getElem?_eq_some_iff.mp hu
    obtain ⟨hlt', rfl⟩ := List.getElem?_eq_some_iff.mp hf
    have hlast : t.drop 24 = [t[24]] := by
      rw [List.drop_eq_getElem_cons hlt', List.drop_of_length_le (by omega)]
    have hrest : (t.drop 10).take 14 ++ [t[24]] = t.drop 10 := by
      have hdrop : (t.drop 10).drop 14 = t.drop 24 := List.drop_drop
      rw [← hlast, ← hdrop, List.take_append_drop]
    rw [hrest, ← List.drop_eq_getElem_cons hlt, List.take_append_drop]
  obtain ⟨d, hd, hroute⟩ := hdeleted _ u _ f [] hsplit hstarts hmid.1 _ hadded
  exact hmid.2 d hd hroute

end ChaosVpn.RestartRoutes
