import Ophan.Router.At
import Ophan.Router.Hosts
import Ophan.Router.Pattern
import Ophan.Router.Slot

/-!
# The router

A router holds a routing tree for every virtual host, the first of which is
the default one.  A request is matched by its host, then by its path, then by
its method.

A change of the router returns the changed router together with its outcome,
since an error does not undo what was changed before it.
-/

namespace Ophan

open Http

universe u

structure Router.VirtualHost (T : Type u) where
  name : Bytes
  tree : Router.Node (Router.RouteSlot T)

structure Router (T : Type u) where
  hostsTable : Router.SniTableRouter
  routesBucket : List (Router.VirtualHost T)
  defaultId : Nat

namespace Router

variable {T : Type u}

def new : Router T where
  hostsTable := SniTableRouter.new
  routesBucket := [{ name := bytes "__default__", tree := Node.empty }]
  defaultId := 0

/-! ## Adding a route -/

/-- Adds an entry to the slot of a pattern, creating it when the pattern is
new.  The slot is removed from the tree and inserted again. -/
def insertEntry (tree : Node (RouteSlot T)) (pattern : Bytes)
    (entry : RouteEntry T) (path : Bytes) :
    Node (RouteSlot T) × Outcome InsertError Unit :=
  let removed := tree.remove pattern
  match removed.2 with
  | .panic => (removed.1, .panic)
  | .err impossible => nomatch impossible
  | .ok none => removed.1.insert pattern (RouteSlot.new entry)
  | .ok (some slot) =>
    let pushed := slot.push entry
    let inserted := removed.1.insert pattern pushed.1
    match inserted.2 with
    | .ok () =>
      match pushed.2 with
      | .ok () => (inserted.1, .ok ())
      | .err _ => (inserted.1, .err (.methodConflict path))
      | .panic => (inserted.1, .panic)
    | failed => (inserted.1, failed)

/-- `trim_end_matches('/')` -/
def trimEndSlashes (path : Bytes) : Bytes := (path.reverse.dropWhile (· = slash)).reverse

/-- The path of a route as it is stored: without slashes at its end, unless it
ends with `/*`. -/
def storedPath (path : Bytes) : Bytes :=
  let trimmed :=
    if 1 < path.length ∧ ¬[slash, star] <:+ path then trimEndSlashes path
    else path
  if trimmed = [] then [slash] else trimmed

/-- `strip_suffix("/*")` -/
def stripWildcard (path : Bytes) : Option Bytes :=
  if [slash, star] <:+ path then some (path.take (path.length - 2)) else none

def insertPath (tree : Node (RouteSlot T)) (path : Bytes)
    (entry : RouteEntry T) : Node (RouteSlot T) × Outcome InsertError Unit :=
  let path := storedPath path
  match normalizePattern path with
  | none => (tree, .panic)
  | some normalized =>
    match stripWildcard path with
    | none => insertEntry tree normalized entry path
    | some base =>
      let inserted := insertEntry tree normalized entry path
      match inserted.2 with
      | .ok () =>
        match normalizePattern (if base = [] then [slash] else base) with
        | none => (inserted.1, .panic)
        | some base =>
          let implicit := insertEntry inserted.1 base { entry with implicit := true } path
          match implicit.2 with
          | .panic => (implicit.1, .panic)
          | _ => (implicit.1, .ok ())
      | failed => (inserted.1, failed)

/-- `insert_into`, the routes of one virtual host. -/
def insertInto (router : Router T) (vhostId : Nat) (path : Bytes)
    (entry : RouteEntry T) : Router T × Outcome InsertError Unit :=
  match router.routesBucket[vhostId]? with
  | none => (router, .panic)
  | some vhost =>
    let inserted := insertPath vhost.tree path entry
    ({ router with
        routesBucket := router.routesBucket.set vhostId { vhost with tree := inserted.1 } },
      inserted.2)

def addVhostInner (router : Router T) (host : Bytes) : Router T × Nat :=
  let id := router.routesBucket.length
  ({ router with
      routesBucket := router.routesBucket ++ [{ name := host, tree := Node.empty }]
      hostsTable := router.hostsTable.addRoute host id },
    id)

/-- The virtual host of a configured name, which is created if needed; `none`
stands for an id outside of the virtual hosts. -/
def vhostOf (router : Router T) (host : Bytes) : Option (Router T × Nat) :=
  match router.hostsTable.route host with
  | none => some (router.addVhostInner host)
  | some id =>
    match router.routesBucket[id]? with
    | none => none
    | some vhost =>
      if eqIgnoreAsciiCase vhost.name host then some (router, id)
      else some (router.addVhostInner host)

theorem vhostOf_cases {router next : Router T} {host : Bytes} {id : Nat}
    (found : router.vhostOf host = some (next, id)) :
    (next = router ∧ router.hostsTable.route host = some id ∧ ∃ vhost,
        router.routesBucket[id]? = some vhost ∧ eqIgnoreAsciiCase vhost.name host = true) ∨
      router.addVhostInner host = (next, id) ∧ ∀ other vhost,
        router.hostsTable.route host = some other → router.routesBucket[other]? = some vhost →
          ¬ eqIgnoreAsciiCase vhost.name host = true := by
  revert found
  fun_cases vhostOf router host <;> intro found
  case case1 nowhere => exact Or.inr ⟨Option.some.inj found, by simp [nowhere]⟩
  case case2 => cases found
  case case3 other routed vhost stored sameName =>
    cases found
    exact Or.inl ⟨rfl, routed, vhost, stored, sameName⟩
  case case4 => exact Or.inr ⟨Option.some.inj found, by grind⟩

/-- The loop over the hosts of a route, with the ids found so far. -/
def vhostIds (router : Router T) : List Bytes → List Nat →
    Option (Router T × List Nat)
  | [], ids => some (router, ids)
  | host :: hosts, ids =>
    match router.vhostOf host with
    | none => none
    | some (router, id) => vhostIds router hosts (if ids.contains id then ids else ids ++ [id])

def insertAll (router : Router T) (path : Bytes) (entry : RouteEntry T) :
    List Nat → Router T × Outcome InsertError Unit
  | [] => (router, .ok ())
  | id :: ids =>
    let inserted := router.insertInto id path entry
    match inserted.2 with
    | .ok () => insertAll inserted.1 path entry ids
    | failed => (inserted.1, failed)

def addRoute (router : Router T) (path : Bytes)
    (methods : HttpMethodSet) (hosts : List Bytes) (value : T) :
    Router T × Outcome InsertError Unit :=
  let methods := if methods.isEmpty then HttpMethodSet.all else methods
  match router.vhostIds hosts (if hosts = [] then [router.defaultId] else []) with
  | none => (router, .panic)
  | some (router, ids) =>
    router.insertAll path { methods := methods, value := value, implicit := false } ids

/-! ## Matching a request -/

def resolveVhost (router : Router T) (host : Option Bytes) : Nat :=
  match host with
  | some host => (router.hostsTable.route (stripPort host)).getD router.defaultId
  | none => router.defaultId

def normalizeTrailingSlash (path : Bytes) : Bytes :=
  let trimmed := trimEndSlashes path
  if trimmed = [] then [slash] else trimmed

def matchRoute (router : Router T) (host : Option Bytes) (method : Method) (path : Bytes) :
    Outcome MatchError (T × Params) :=
  match router.routesBucket[router.resolveVhost host]? with
  | none => .panic
  | some vhost =>
    (vhost.tree.atPath (normalizeTrailingSlash path)).bind
      fun (slot, params) =>
        match slot.find method with
        | some entry => .ok (entry.value, params)
        | none => .err .methodNotAllowed

def removeFromVhost (router : Router T) (vhostId : Nat)
    (path : Bytes) : Router T × Outcome Empty (Option T) :=
  match router.routesBucket[vhostId]?, normalizePattern path with
  | some vhost, some normalized =>
    let removed := vhost.tree.remove normalized
    ({ router with
        routesBucket := router.routesBucket.set vhostId { vhost with tree := removed.1 } },
      removed.2.bind fun slot => .ok (slot.map (·.first.value)))
  | _, _ => (router, .panic)

def remove (router : Router T) (path : Bytes) : Router T × Outcome Empty (Option T) :=
  router.removeFromVhost router.defaultId path

end Router

end Ophan
