/-!
# Devices

Devices are wired to the six screws of the chip's housing, and the housing is one itself. The chip
reads and writes their properties.
-/
namespace Chipwright

inductive Slot
  | pin (n : Fin 6)
  | housing
  deriving DecidableEq

namespace Slot

def all : List Slot := (List.finRange 6).map pin ++ [housing]

def name : Slot → String
  | pin n => s!"d{n.val}"
  | housing => "db"

def ofName? (text : String) : Option Slot := all.find? (·.name = text)

end Slot

/-- The known properties of devices, in alphabetical order. -/
def knownProperties : List String :=
  ["Activate", "AirRelease", "Charge", "ClearMemory", "Color", "CompletionRatio",
    "ElevatorLevel", "ElevatorSpeed", "Error", "ExportCount", "Filtration", "Harvest",
    "Horizontal", "HorizontalRatio", "Idle", "ImportCount", "Lock", "Maximum", "Mode", "On",
    "Open", "Output", "Plant", "PositionX", "PositionY", "Power", "PowerActual",
    "PowerPotential", "PowerRequired", "Pressure", "PressureExternal", "PressureInternal",
    "PressureSetting", "Quantity", "Ratio", "RatioCarbonDioxide", "RatioNitrogen",
    "RatioOxygen", "RatioPollutant", "RatioVolatiles", "RatioWater", "Reagents", "RecipeHash",
    "RequestHash", "RequiredPower", "Setting", "SolarAngle", "Temperature",
    "TemperatureSetting", "TotalMoles", "VelocityMagnitude", "VelocityRelativeX",
    "VelocityRelativeY", "VelocityRelativeZ", "Vertical", "VerticalRatio", "Volume"]

end Chipwright
