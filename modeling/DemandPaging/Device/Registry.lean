import DemandPaging.Device.Basic

/-! # The device registry

Devices are numbered in order of registration and found again by number, by name or by kind.
-/
namespace DemandPaging

/-- The devices of a machine, in order of registration. -/
structure DeviceRegistry where
  devices : Array Device := #[]

namespace DeviceRegistry

/-- Adds a device under the next index. -/
def register (r : DeviceRegistry) (d : Device) : DeviceRegistry :=
  { r with devices := r.devices.push { d with index := r.devices.size } }

def byIndex? (r : DeviceRegistry) (i : Nat) : Option Device := r.devices[i]?

def byName? (r : DeviceRegistry) (name : String) : Option Device :=
  r.devices.find? (·.name = name)

/-- The first device of a kind, for instance the swap device. -/
def byKind? (r : DeviceRegistry) (kind : DeviceKind) : Option Device :=
  r.devices.find? (·.kind = kind)

/-- Puts back a device after a transfer. -/
def update (r : DeviceRegistry) (d : Device) : DeviceRegistry :=
  { r with devices := r.devices.setIfInBounds d.index d }

def summary (r : DeviceRegistry) : String :=
  r.devices.foldl (fun text d => text ++ d.summary ++ "\n") "Block Devices:\n"

end DeviceRegistry

end DemandPaging
