/-!
The version that reports and the command line show.
-/

namespace Telemetry

def version : String := "0.1.0"

def programName : String := "meterscan"

end Telemetry
