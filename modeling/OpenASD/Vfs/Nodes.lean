/-
The VFS layer (kernel/vfs/vfs.c): the table of open nodes, the descriptors of processes and the calls that take a path or
a descriptor. This module is the model only.

`σ` is what the backends keep in memory, `π` the type of processes. A backend is a record of functions on σ, as in the
source a record of function pointers, each of which may be missing. A backend context is an address, 0 for NULL.

Every call takes `g_vfs_lock` and gives it back, so a call is one step. Buffers that a call writes to are results here;
they are not NULL, as with all callers. Errors are the negative codes of the source.
-/
import Mathlib.Algebra.Group.Nat.Defs
import OpenASD.Vfs.Path

namespace OpenASD.Vfs

open Function (update)

/-! ## Constants -/

/-- MAX_FDS -/
def maxFds : ℕ := 256
/-- MAX_VFSNODES -/
def maxNodes : ℕ := 1024
/-- MAX_BACKENDS -/
def maxBackends : ℕ := 16

/-- the bits of the VFS_O_* flags -/
def oRead (flags : ℕ) : Bool := flags.testBit 0
def oWrite (flags : ℕ) : Bool := flags.testBit 1
def oCreat (flags : ℕ) : Bool := flags.testBit 2
def oTrunc (flags : ℕ) : Bool := flags.testBit 3
def oDir (flags : ℕ) : Bool := flags.testBit 4

/-- the VFS_E* codes -/
def eErr : ℤ := -1
def eNoent : ℤ := -2
def eInval : ℤ := -3
def ePerm : ℤ := -4
def eNospc : ℤ := -5
def eNodev : ℤ := -6
def eMfile : ℤ := -9

/-- VFS_NODE_FILE and VFS_NODE_DIR -/
inductive Kind where
  | file
  | dir
deriving DecidableEq, Repr

structure StatInfo where
  size : ℤ
  kind : Kind
  mtimeNs : ℕ
  name : Str
deriving DecidableEq

/-- the name is the whole array of VFS_DIRENT_NAME_LEN characters, with what stands behind its first NUL -/
structure Dirent where
  name : Str
  kind : Kind
  size : ℤ
deriving DecidableEq

abbrev Bytes := List UInt8

/-! ## State -/

/-- `vfs_ops_t`, with the backend as its first argument filled in -/
structure Ops (σ : Type) where
  opOpen : Option (σ → Str → ℕ → ℕ × σ)
  opClose : Option (σ → ℕ → σ)
  opRead : Option (σ → ℕ → ℕ → Except ℤ Bytes × σ)
  opWrite : Option (σ → ℕ → Bytes → Except ℤ Unit × σ)
  opSeek : Option (σ → ℕ → ℤ → ℤ → Except ℤ ℕ × σ)
  /-- with the caller's buffer as it was; the entries that were filled -/
  opReaddir : Option (σ → ℕ → List Dirent → Except ℤ (List Dirent) × σ)
  opStat : Option (σ → Str → Except ℤ StatInfo)
  opUnlink : Option (σ → Str → Except ℤ Unit × σ)
  opMkdir : Option (σ → Str → Except ℤ Unit × σ)

/-- what vfs.c calls of the ring buffers and ports -/
structure Env (σ : Type) where
  slotSize : ℕ → ℕ
  /-- `ringbuf_pop` of a number of bytes; none if the ring is empty -/
  ringPop : σ → ℕ → ℕ → Option (Bytes × σ)
  /-- `ringbuf_push`; none if the ring is full -/
  ringPush : σ → ℕ → Bytes → Option σ
  portSend : σ → ℕ → Bytes → Except ℤ Unit × σ

/-- `vfsnode_t` -/
structure Node (σ π : Type) where
  /-- 0 for a free slot -/
  nodeId : ℕ
  refcount : ℕ
  flags : ℕ
  offset : ℕ
  size : ℤ
  path : Str
  backend : Option (Backend (Ops σ))
  bctx : ℕ
  pcb : Option π
  ring : Option ℕ
  portId : ℕ

structure State (σ π : Type) where
  world : σ
  /-- `g_backends` -/
  backends : List (Backend (Ops σ))
  /-- `g_nodes` -/
  node : ℕ → Node σ π
  /-- `g_next_node_id` -/
  nextNodeId : ℕ
  /-- the `fd_table` of each PCB: indices of nodes -/
  fdTable : π → ℕ → Option ℕ

variable {σ π : Type} (s : State σ π)

namespace State

def setWorld (w : σ) : State σ π := { s with world := w }

def setNode (nid : ℕ) (v : Node σ π) : State σ π := { s with node := update s.node nid v }

def setFd [DecidableEq π] (p : π) (fd : ℕ) (v : Option ℕ) : State σ π :=
  { s with fdTable := update s.fdTable p (update (s.fdTable p) fd v) }

end State

/-! ## Start and mounts -/

def Ops.empty : Ops σ := ⟨none, none, none, none, none, none, none, none, none⟩

/-- zeroed memory -/
def Node.free : Node σ π := ⟨0, 0, 0, 0, 0, [], none, 0, none, none, 0⟩

def vfsInit (w : σ) : State σ π :=
  ⟨w, List.replicate maxBackends ⟨0, [], Ops.empty⟩, fun _ => Node.free, 1, fun _ _ => none⟩

/-- the id of the mount, 0 if there is none -/
def vfsMount (mountPt : Str) (ops : Ops σ) : ℕ × State σ π :=
  if mountPt = [] then (0, s)
  else
    match s.backends.findIdx? fun be => decide (be.id = 0) with
    | none => (0, s)
    | some i => (i + 1, { s with backends := s.backends.set i ⟨i + 1, mountPt.take (vfsPathMax - 1), ops⟩ })

/-! ## Helpers -/

/-- `alloc_node_id`; none if all slots are taken -/
def allocNodeId : Option ℕ :=
  ((List.range maxNodes).map fun i => (s.nextNodeId + i) % maxNodes).find? fun c =>
    decide (c ≠ 0) && decide ((s.node c).nodeId = 0)

def nextAfter (nid : ℕ) : ℕ := if (nid + 1) % maxNodes = 0 then 1 else (nid + 1) % maxNodes

/-- `be->ops.close(be, bctx)`, if there is one -/
def closeCtx (be : Backend (Ops σ)) (ctx : ℕ) : State σ π :=
  match be.ops.opClose with
  | none => s
  | some f => s.setWorld (f s.world ctx)

/-- a descriptor's node: from MAX_FDS on a number of a node, below an entry of the current process's table -/
def lookup (cur : Option π) (fd : ℕ) : Option ℕ :=
  if maxFds ≤ fd then
    if maxNodes ≤ fd - maxFds ∨ (s.node (fd - maxFds)).nodeId ≠ fd - maxFds then none else some (fd - maxFds)
  else cur.bind fun p => s.fdTable p fd

/-- the first free descriptor of a process -/
def freeFd (p : π) : Option ℕ := (List.range' 1 (maxFds - 1)).find? fun fd => (s.fdTable p fd).isNone

/-! ## Open and close -/

/-- find the backend and open the file there; without a context the call fails -/
def openBackend (path : Str) (flags : ℕ) : Option (Backend (Ops σ) × Str × ℕ) × State σ π :=
  match findBackend s.backends path with
  | none => (none, s)
  | some (be, rel) =>
    match be.ops.opOpen with
    | none => (none, s)
    | some f =>
      let r := f s.world rel flags
      (if r.1 = 0 then none else some (be, rel, r.1), s.setWorld r.2)

/-- the size that the backend's stat gives, -1 if there is none -/
def statSize (be : Backend (Ops σ)) (rel : Str) : ℤ :=
  match be.ops.opStat with
  | none => -1
  | some f => match f s.world rel with
    | .ok info => info.size
    | .error _ => -1

/-- a node is taken for a file that the backend has opened -/
def installNode (nid : ℕ) (path : Str) (flags : ℕ) (be : Backend (Ops σ)) (rel : Str) (ctx : ℕ)
    (caller : Option π) : State σ π :=
  { s with
    nextNodeId := nextAfter nid
    node := update s.node nid
      ⟨nid, 1, flags, 0, statSize s be rel, path, some be, ctx, caller, none, 0⟩ }

/-- `vfs_open` from the canonical path on -/
def openCanonical [DecidableEq π] (path : Str) (flags : ℕ) (caller : Option π) : Except ℤ ℕ × State σ π :=
  match openBackend s path flags with
  | (none, s) => (.error eNoent, s)
  | (some (be, rel, ctx), s) =>
    match allocNodeId s with
    | none => (.error eMfile, closeCtx s be ctx)
    | some nid =>
      let s := installNode s nid path flags be rel ctx caller
      match caller with
      | none => (.ok (nid + maxFds), s)
      | some p =>
        match freeFd s p with
        | some fd => (.ok fd, s.setFd p fd (some nid))
        | none => (.error eMfile, closeCtx (s.setNode nid { s.node nid with nodeId := 0 }) be ctx)

/-- read access if neither is asked for -/
def openFlags (flags : ℕ) : ℕ := if oRead flags || oWrite flags then flags else flags ||| 1

def vfsOpen [DecidableEq π] (path : Str) (flags : ℕ) (caller : Option π) : Except ℤ ℕ × State σ π :=
  if path = [] then (.error eInval, s)
  else
    match vfsCanonicalize path vfsPathMax with
    | none => (.error eInval, s)
    | some canon => openCanonical s canon (openFlags flags) caller

/-- `refcount--` -/
@[irreducible] def pred32 (n : ℕ) : ℕ := (n + 2 ^ 32 - 1) % 2 ^ 32

/-- the backend of a node closes its context -/
def closeNode (v : Node σ π) : State σ π :=
  match v.backend with
  | none => s
  | some be => closeCtx s be v.bctx

/-- a reference to a node is dropped; with the last one the node is freed -/
def dropRef (nid : ℕ) : State σ π :=
  let v := s.node nid
  if pred32 v.refcount = 0 then (closeNode s v).setNode nid { v with refcount := 0, nodeId := 0 }
  else s.setNode nid { v with refcount := pred32 v.refcount }

/-- `fdt[fd] = NULL` -/
def clearFd [DecidableEq π] (cur : Option π) (fd : ℕ) : State σ π :=
  match cur with
  | none => s
  | some p => if maxFds ≤ fd then s else s.setFd p fd none

def vfsClose [DecidableEq π] (cur : Option π) (fd : ℕ) : Except ℤ Unit × State σ π :=
  if fd = 0 then (.error eInval, s)
  else
    match lookup s cur fd with
    | none => (.error eInval, s)
    | some nid => (.ok (), dropRef (clearFd s cur fd) nid)

/-! ## Read, write and seek -/

/-- the loop of `vfs_read` over the slots of a ring; a slot has at least 8 bytes, so it ends within n rounds -/
def ringRead (E : Env σ) (ring : ℕ) (w : σ) (n : ℕ) : ℕ → Bytes × σ
  | 0 => ([], w)
  | fuel + 1 =>
    if n = 0 then ([], w)
    else
      match E.ringPop w ring (min n (E.slotSize ring)) with
      | none => ([], w)
      | some (b, w) =>
        let r := ringRead E ring w (n - min n (E.slotSize ring)) fuel
        (b ++ r.1, r.2)

/-- the loop of `vfs_write`: how many bytes were stored -/
def ringWrite (E : Env σ) (ring : ℕ) (w : σ) (data : Bytes) : ℕ → ℕ × σ
  | 0 => (0, w)
  | fuel + 1 =>
    if data = [] then (0, w)
    else
      match E.ringPush w ring (data.take (E.slotSize ring)) with
      | none => (0, w)
      | some w =>
        let r := ringWrite E ring w (data.drop (E.slotSize ring)) fuel
        ((data.take (E.slotSize ring)).length + r.1, r.2)

/-- `offset += n` -/
@[irreducible] def add64 (a n : ℕ) : ℕ := (a + n) % 2 ^ 64

def advance (v : Node σ π) (n : ℕ) : Node σ π := { v with offset := add64 v.offset n }

/-- `vfs_read` on a node -/
def readNode (E : Env σ) (s : State σ π) (nid n : ℕ) : Except ℤ Bytes × State σ π :=
  match (s.node nid).ring with
  | some ring =>
    let r := ringRead E ring s.world n n
    (if r.1 = [] then .error eErr else .ok r.1, s.setWorld r.2)
  | none =>
    match (s.node nid).backend.bind fun be => be.ops.opRead with
    | none => (.error ePerm, s)
    | some f =>
      let r := f s.world (s.node nid).bctx n
      match r.1 with
      | .ok b => (.ok b, (s.setWorld r.2).setNode nid (advance (s.node nid) b.length))
      | .error e => (.error e, s.setWorld r.2)

def vfsRead (E : Env σ) (s : State σ π) (cur : Option π) (fd n : ℕ) : Except ℤ Bytes × State σ π :=
  if fd = 0 then (.error eInval, s)
  else
    match lookup s cur fd with
    | none => (.error eInval, s)
    | some nid => readNode E s nid n

/-- `vfs_write` on a node -/
def writeNode (E : Env σ) (s : State σ π) (nid : ℕ) (data : Bytes) : Except ℤ Unit × State σ π :=
  match (s.node nid).ring with
  | some ring =>
    let r := ringWrite E ring s.world data data.length
    (if r.1 = 0 then .error eErr else .ok (), s.setWorld r.2)
  | none =>
    if (s.node nid).portId ≠ 0 then
      let r := E.portSend s.world (s.node nid).portId data
      (r.1, s.setWorld r.2)
    else
      match (s.node nid).backend.bind fun be => be.ops.opWrite with
      | none => (.error ePerm, s)
      | some f =>
        let r := f s.world (s.node nid).bctx data
        match r.1 with
        | .ok () => (.ok (), (s.setWorld r.2).setNode nid (advance (s.node nid) data.length))
        | .error e => (.error e, s.setWorld r.2)

def vfsWrite (E : Env σ) (s : State σ π) (cur : Option π) (fd : ℕ) (data : Bytes) : Except ℤ Unit × State σ π :=
  if fd = 0 ∨ data = [] then (.error eInval, s)
  else
    match lookup s cur fd with
    | none => (.error eInval, s)
    | some nid => writeNode E s nid data

/-- the signed 64-bit value -/
def int64 (x : ℤ) : ℤ := x.bmod (2 ^ 64)

/-- the new offset for a node without a seek function; whence is 0, 1 or 2 -/
def plainSeek (v : Node σ π) (off whence : ℤ) : Except ℤ ℤ :=
  if whence = 0 then .ok off
  else if whence = 1 then .ok (int64 (v.offset + off))
  else if whence = 2 then if v.size < 0 then .error eErr else .ok (int64 (v.size + off))
  else .error eInval

/-- `vfs_seek` on a node -/
def seekNode (nid : ℕ) (off whence : ℤ) : Except ℤ ℕ × State σ π :=
  match (s.node nid).backend.bind fun be => be.ops.opSeek with
  | some f =>
    let r := f s.world (s.node nid).bctx off whence
    match r.1 with
    | .ok n => (.ok n, (s.setWorld r.2).setNode nid { s.node nid with offset := n })
    | .error e => (.error e, s.setWorld r.2)
  | none =>
    match plainSeek (s.node nid) off whence with
    | .error e => (.error e, s)
    | .ok n => if n < 0 then (.error eInval, s) else (.ok n.toNat, s.setNode nid { s.node nid with offset := n.toNat })

def vfsSeek (cur : Option π) (fd : ℕ) (off whence : ℤ) : Except ℤ ℕ × State σ π :=
  if fd = 0 then (.error eInval, s)
  else
    match lookup s cur fd with
    | none => (.error eInval, s)
    | some nid => seekNode s nid off whence

/-! ## Calls with a path -/

def vfsStat (path : Str) : Except ℤ StatInfo :=
  match vfsCanonicalize path vfsPathMax with
  | none => .error eInval
  | some canon =>
    match findBackend s.backends canon with
    | none => .error eNoent
    | some (be, rel) =>
      match be.ops.opStat with
      | none => .error eNoent
      | some f => f s.world rel

/-- the common body of `vfs_unlink` and `vfs_mkdir`; `op` is the function of the backend that they call -/
def pathCall (op : Ops σ → Option (σ → Str → Except ℤ Unit × σ)) (s : State σ π) (path : Str) :
    Except ℤ Unit × State σ π :=
  if path = [] then (.error eInval, s)
  else
    match vfsCanonicalize path vfsPathMax with
    | none => (.error eInval, s)
    | some canon =>
      match findBackend s.backends canon with
      | none => (.error eNodev, s)
      | some (be, rel) =>
        match op be.ops with
        | none => (.error eNodev, s)
        | some f =>
          let r := f s.world rel
          (r.1, s.setWorld r.2)

def vfsUnlink (path : Str) : Except ℤ Unit × State σ π := pathCall Ops.opUnlink s path

def vfsMkdir (path : Str) : Except ℤ Unit × State σ π := pathCall Ops.opMkdir s path

/-- unlike the others, this one takes the path as it is; none if the backend has no open function -/
def vfsReaddir (path : Str) (buf : List Dirent) : Option (Except ℤ (List Dirent) × State σ π) :=
  match findBackend s.backends path with
  | none => some (.error eNodev, s)
  | some (be, rel) =>
    match be.ops.opReaddir with
    | none => some (.error eNodev, s)
    | some f =>
      be.ops.opOpen.map fun g =>
        let r := g s.world rel 17
        if r.1 = 0 then (.error eNoent, s.setWorld r.2)
        else
          let d := f r.2 r.1 buf
          (d.1, closeCtx (s.setWorld d.2) be r.1)

/-! ## Nodes of ring buffers -/

/-- the node of a ring has no descriptor -/
def vfsRegisterRing (path : Str) (ring : ℕ) : Except ℤ Unit × State σ π :=
  match allocNodeId s with
  | none => (.error eMfile, s)
  | some nid =>
    (.ok (), { s with
      nextNodeId := nextAfter nid
      node := update s.node nid ⟨nid, 1, 3, 0, -1, path.take (vfsPathMax - 1), none, 0, none, some ring, 0⟩ })

/-- the first node of that path, of whatever kind, is freed; its context stays open -/
def vfsUnregisterNode (path : Str) : Except ℤ Unit × State σ π :=
  match (List.range maxNodes).find? fun i => decide ((s.node i).nodeId ≠ 0) && decide ((s.node i).path = path) with
  | none => (.error eNoent, s)
  | some i => (.ok (), s.setNode i { s.node i with nodeId := 0 })

end OpenASD.Vfs
