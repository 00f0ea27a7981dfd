import Mathlib.Logic.Equiv.Basic
import Remi.Lib.Renaming
import Remi.Server.Handlers

/-!
# `Remi.Server.Renaming`: clients with other numbers

The number of a client is a name. `ρ` gives the clients other numbers, and everything that
mentions a handler changes with it: the descriptors and segments, the records, the histories, and
the operations with their answers.
-/

set_option autoImplicit false

namespace Remi

open Remi.Lib

section
variable (ρ : Equiv.Perm Nat)

def Tid.rename (t : Tid) : Tid := ⟨ρ t.client, t.call⟩

def Fd.rename (fd : Fd) : Fd := ⟨fd.owner.rename ρ, fd.index⟩

def Seg.rename (seg : Seg) : Seg := ⟨seg.owner.rename ρ, seg.index⟩

def Addr.rename : Addr → Addr
  | .null => .null
  | .failed => .failed
  | .mapped seg => .mapped (seg.rename ρ)

/-- The segments of a bulk handle of the provider. -/
def renameSegs (segs : List (Addr × Nat)) : List (Addr × Nat) :=
  segs.map fun seg => (Addr.rename ρ seg.1, seg.2)

def Operation.rename (op : Operation) : Operation :=
  { op with
    fds := op.fds.map (Fd.rename ρ)
    mutex := op.mutex.map (Tid.rename ρ)
    closedBy := op.closedBy.map (Tid.rename ρ) }

def CallbackCall.rename : CallbackCall → CallbackCall
  | .before t callback uargs fileset => .before (t.rename ρ) callback uargs fileset
  | .after t id callback uargs fileset => .after (t.rename ρ) id callback uargs fileset

def WriteCall.rename (c : WriteCall) : WriteCall :=
  { c with t := c.t.rename ρ, fd := c.fd.rename ρ }

def Provider.rename (s : Provider) : Provider :=
  { s with
    opInProgress := fun id => (s.opInProgress id).map (Operation.rename ρ)
    descriptors := fun fd => s.descriptors (fd.rename ρ.symm)
    isOpen := fun fd => s.isOpen (fd.rename ρ.symm)
    opened := fun t => s.opened (t.rename ρ.symm)
    segments := fun seg => s.segments (seg.rename ρ.symm)
    mapped := fun t => s.mapped (t.rename ρ.symm)
    issuedTo := fun id => (s.issuedTo id).map (Tid.rename ρ)
    responses := fun t => s.responses (t.rename ρ.symm)
    closes := fun fd => s.closes (fd.rename ρ.symm)
    exposes := fun a => s.exposes (Addr.rename ρ.symm a)
    syncs := fun a => s.syncs (Addr.rename ρ.symm a)
    unmaps := fun a => s.unmaps (Addr.rename ρ.symm a)
    mapFailures := fun t => s.mapFailures (t.rename ρ.symm)
    callbacks := s.callbacks.map (CallbackCall.rename ρ)
    writes := s.writes.map (WriteCall.rename ρ) }

def Op.rename : Op → Op
  | .close fd => .close (fd.rename ρ)
  | .insert id op => .insert id (op.rename ρ)
  | .ftruncate id fd size => .ftruncate id (fd.rename ρ) size
  | .mmap id fd size => .mmap id (fd.rename ρ) size
  | .munmap a => .munmap (Addr.rename ρ a)
  | .expose segs => .expose (renameSegs ρ segs)
  | .pull remote segs => .pull remote (renameSegs ρ segs)
  | .msync a => .msync (Addr.rename ρ a)
  | .pwrite id fd data offset => .pwrite id (fd.rename ρ) data offset
  | .abtIoPwrite id fd data offset => .abtIoPwrite id (fd.rename ρ) data offset
  | o => o

/-- The answer to an operation, with the names changed. -/
def Op.renameAns : (o : Op) → Ans o → Ans (o.rename ρ)
  | .openTrunc _ _, r => Option.map (Fd.rename ρ) r
  | .load _, op => Operation.rename ρ op
  | .mmap _ _ _, a => Addr.rename ρ a
  | .newUuid, r => r
  | .classCount _, r => r
  | .classAt _, r => r
  | .access _, r => r
  | .mkdir _, r => r
  | .close _, r => r
  | .vecAt _ _, r => r
  | .filesizeAt _ _, r => r
  | .before _ _ _, r => r
  | .insert _ _, r => r
  | .find _, r => r
  | .erase _, r => r
  | .lock _, r => r
  | .unlock _, r => r
  | .setError _ _, r => r
  | .closeFds _, r => r
  | .after _ _ _, r => r
  | .ftruncate _ _ _, r => r
  | .munmap _, r => r
  | .expose _, r => r
  | .pull _ _, r => r
  | .msync _, r => r
  | .pwrite _ _ _ _, r => r
  | .abtIoPwrite _ _ _ _, r => r
  | .respond _, r => r

end

end Remi
